/-
# How much the message store can hold

A message takes a slot of the store: a kind, a view and, but for proposals, a sender.  The
handler lets through only rounds within the limit and, of each height, only its validators,
so the slots of one height are finitely many whatever arrives.  Pruning empties the slots up
to the height of the node, and all that can come back is the one message that the handler
had checked before the height grew.  The heights above are not limited: a single validator
can fill as many of them as it signs messages for.
-/
import Tonic.FirstMessage
import Tonic.Heights
import Tonic.HonestMessages

namespace Tonic

open Transition

variable {cfg : Config} {n n' : Node} {run run' : Run} {ev : Event}
  {msgs msgs' : ConsensusMessages} {K : Knowledge}

/-! ## The slots of a height -/

/-- The sender of the message in a slot; a proposal has no sender of its own. -/
def Slot.sender? : Slot → Option Address
  | .proposal _ => none
  | .prepare _ sender => some sender
  | .commit _ sender => some sender
  | .roundChange _ sender => some sender

/-- The rounds up to the limit. -/
def rounds : Finset UInt8 := (Finset.range roundArraySize).image UInt8.ofNat

theorem card_rounds_le : rounds.card ≤ roundArraySize :=
  Finset.card_image_le.trans (Finset.card_range _).le

theorem mem_rounds {round : UInt8} (h : round ≤ maxRound) : round ∈ rounds := by
  have hlt : round.toNat < roundArraySize := by
    have hle := UInt8.le_iff_toNat_le.mp h
    simp only [maxRound, UInt8.reduceToNat] at hle
    simp only [roundArraySize]
    omega
  rw [rounds, Finset.mem_image]
  exact ⟨round.toNat, Finset.mem_range.mpr hlt, UInt8.ofNat_toNat⟩

/-- The slots of a view for messages of the senders. -/
def slotsOfView (senders : Finset Address) (view : View) : Finset Slot :=
  {.proposal view} ∪ (senders.image (Slot.prepare view) ∪ (senders.image (Slot.commit view) ∪
    senders.image (Slot.roundChange view)))

theorem card_slotsOfView_le (senders : Finset Address) (view : View) :
    (slotsOfView senders view).card ≤ 1 + 3 * senders.card := by
  have hkind : ∀ f : Address → Slot, (senders.image f).card ≤ senders.card :=
    fun f => Finset.card_image_le
  calc (slotsOfView senders view).card
      ≤ 1 + ((senders.image (Slot.prepare view)).card + ((senders.image (Slot.commit view)).card +
          (senders.image (Slot.roundChange view)).card)) := by
        refine (Finset.card_union_le _ _).trans ?_
        refine Nat.add_le_add (by simp) ((Finset.card_union_le _ _).trans ?_)
        exact Nat.add_le_add_left (Finset.card_union_le _ _) _
    _ ≤ 1 + 3 * senders.card := by
        have hprepare := hkind (.prepare view)
        have hcommit := hkind (.commit view)
        have hroundChange := hkind (.roundChange view)
        omega

/-- The slots of a height for messages of the senders. -/
def slotsOfHeight (senders : Finset Address) (height : UInt64) : Finset Slot :=
  rounds.biUnion fun round => slotsOfView senders { height, round }

theorem card_slotsOfHeight_le (senders : Finset Address) (height : UInt64) :
    (slotsOfHeight senders height).card ≤ roundArraySize * (1 + 3 * senders.card) :=
  (Finset.card_biUnion_le_card_mul rounds _ _ fun round _ =>
    card_slotsOfView_le senders { height, round }).trans
      (Nat.mul_le_mul_right _ card_rounds_le)

theorem mem_slotsOfHeight {senders : Finset Address} {slot : Slot}
    (hround : slot.view.round ≤ maxRound) (hsender : ∀ a, slot.sender? = some a → a ∈ senders) :
    slot ∈ slotsOfHeight senders slot.view.height := by
  rw [slotsOfHeight, Finset.mem_biUnion]
  refine ⟨slot.view.round, mem_rounds hround, ?_⟩
  cases slot with
  | proposal view => simp [slotsOfView, Slot.view]
  | prepare view a => simpa [slotsOfView, Slot.view] using hsender a rfl
  | commit view a => simpa [slotsOfView, Slot.view] using hsender a rfl
  | roundChange view a => simpa [slotsOfView, Slot.view] using hsender a rfl

/-! ## Which slots can be occupied -/

/-- The sender of a stored message is a validator of its height or the node itself. -/
theorem Origin.sender_cases {m : IBFTMessage} {a : Address} (h : Origin cfg K m a)
    (hkind : ∀ p, m ≠ .proposal p) :
    cfg.validatorManager.isValidator a m.view.height = true ∨ a = cfg.address := by
  cases h with
  | own heq => exact Or.inr heq
  | peer _ _ _ hadm =>
    left
    cases m with
    | proposal p => exact absurd rfl (hkind p)
    | prepare m => exact hadm.1
    | commit m => exact hadm.1
    | roundChange m => exact hadm.1

/-- A stored message other than a round change is within the round limit. -/
theorem Node.Inv.round_le_of_origin (h : n.Inv cfg) {m : IBFTMessage} {a : Address}
    (horigin : Origin cfg n.knowledge m a) (hkind : ∀ rc, m ≠ .roundChange rc) :
    m.view.round ≤ maxRound := by
  cases horigin with
  | peer _ _ _ _ hround => exact hround
  | own _ hsent => exact (h.actions _ hsent).round_le hkind

/-- A slot that can be occupied. -/
structure Slot.Admitted (cfg : Config) (slot : Slot) : Prop where
  round_le : slot.view.round ≤ maxRound
  sender : ∀ a, slot.sender? = some a →
    cfg.validatorManager.isValidator a slot.view.height = true ∨ a = cfg.address

theorem Node.admitted_of_occupied {first : UInt64}
    (h : Reachable (Node.step cfg) (Node.init cfg first) n) {slot : Slot}
    (hocc : n.messages.occupied slot = true) : slot.Admitted cfg := by
  have hinv := Node.inv_of_reachable h
  obtain ⟨-, hproposal, hprepare, hcommit, hroundChange, -⟩ := hinv.store
  cases slot with
  | proposal view =>
    obtain ⟨p, hp⟩ := Option.isSome_iff_exists.mp hocc
    exact ⟨hinv.round_le_of_storedProposal view p hp, fun a ha => by cases ha⟩
  | prepare view a =>
    obtain ⟨m, hm⟩ := Option.isSome_iff_exists.mp hocc
    obtain ⟨rfl, horigin⟩ := hprepare view a m (FirstWinsMap.get?_eq_some_iff.mp hm)
    refine ⟨hinv.round_le_of_origin horigin (by simp), fun b hb => ?_⟩
    cases hb
    exact horigin.sender_cases (by simp)
  | commit view a =>
    obtain ⟨m, hm⟩ := Option.isSome_iff_exists.mp hocc
    obtain ⟨rfl, horigin⟩ := hcommit view a m (FirstWinsMap.get?_eq_some_iff.mp hm)
    refine ⟨hinv.round_le_of_origin horigin (by simp), fun b hb => ?_⟩
    cases hb
    exact horigin.sender_cases (by simp)
  | roundChange view a =>
    obtain ⟨e, he⟩ := Option.isSome_iff_exists.mp hocc
    have he := FirstWinsMap.get?_eq_some_iff.mp he
    obtain ⟨hview, horigin⟩ := hroundChange view a e.1 e.2 he
    refine ⟨Node.roundChangesLe_of_reachable h (view, a) e he, fun b hb => ?_⟩
    cases hb
    have hsender := horigin.sender_cases (by simp)
    rwa [show (IBFTMessage.roundChange e.1).view = view from hview] at hsender

/-- **The store is bounded at every height**: whatever arrives, of one height there are no more
messages than one proposal a round and, of each validator and of the node itself, three more. -/
theorem slots_bounded {first : UInt64} (h : Reachable (Node.step cfg) (Node.init cfg first) n)
    {height : UInt64} {senders : Finset Address} (hself : cfg.address ∈ senders)
    (hvalidators : ∀ a, cfg.validatorManager.isValidator a height = true → a ∈ senders)
    {slots : Finset Slot}
    (hslots : ∀ slot ∈ slots, slot.view.height = height ∧ n.messages.occupied slot = true) :
    slots.card ≤ roundArraySize * (1 + 3 * senders.card) := by
  refine (Finset.card_le_card fun slot hslot => ?_).trans (card_slotsOfHeight_le senders height)
  obtain ⟨rfl, hocc⟩ := hslots slot hslot
  have hadmitted := Node.admitted_of_occupied h hocc
  refine mem_slotsOfHeight hadmitted.round_le fun a ha => ?_
  rcases hadmitted.sender a ha with hval | rfl
  · exact hvalidators a hval
  · exact hself

/-- What one of four validators holds while it waits for the last commit of its second round. -/
def sealingSlots : Finset Slot :=
  {.commit (fourView 0) (modelAddress 0), .proposal (fourView 1),
    .prepare (fourView 1) (modelAddress 0), .prepare (fourView 1) (modelAddress 1),
    .prepare (fourView 1) (modelAddress 3), .commit (fourView 1) (modelAddress 0),
    .commit (fourView 1) (modelAddress 2), .roundChange (fourView 2) (modelAddress 3)}

theorem slots_bounded_sealing :
    sealingSlots.card = 8 ∧ sealingSlots.card ≤ roundArraySize * (1 + 3 * 4) := by
  let validators : Finset Address :=
    {modelAddress 0, modelAddress 1, modelAddress 2, modelAddress 3}
  have hreach : Reachable (Node.step fourConfig) (Node.init fourConfig 0) sealingNode :=
    reachable_get _
  have hvalidators : ∀ a, fourConfig.validatorManager.isValidator a 1 = true → a ∈ validators := by
    intro a ha
    simpa [fourConfig, mockManager, validators] using ha
  have hcard : validators.card = 4 := by decide +kernel
  have hslots : ∀ slot ∈ sealingSlots,
      slot.view.height = 1 ∧ sealingNode.messages.occupied slot = true := by
    decide +kernel
  have hbound := slots_bounded hreach (by decide +kernel) hvalidators hslots
  rw [hcard] at hbound
  exact ⟨by decide +kernel, hbound⟩

/-! ## What steps of a run do to the slots -/

theorem SubStore.occupied (h : SubStore msgs msgs') {slot : Slot}
    (hocc : msgs'.occupied slot = true) : msgs.occupied slot = true := by
  cases slot with
  | proposal view =>
    obtain ⟨p, hp⟩ := Option.isSome_iff_exists.mp hocc
    exact Option.isSome_iff_exists.mpr ⟨p, h.proposal view p hp⟩
  | prepare view a =>
    obtain ⟨m, hm⟩ := Option.isSome_iff_exists.mp hocc
    have hst := h.prepare (view, a) m (FirstWinsMap.get?_eq_some_iff.mp hm)
    exact Option.isSome_iff_exists.mpr ⟨m, FirstWinsMap.get?_eq_some_iff.mpr hst⟩
  | commit view a =>
    obtain ⟨m, hm⟩ := Option.isSome_iff_exists.mp hocc
    have hst := h.commit (view, a) m (FirstWinsMap.get?_eq_some_iff.mp hm)
    exact Option.isSome_iff_exists.mpr ⟨m, FirstWinsMap.get?_eq_some_iff.mpr hst⟩
  | roundChange view a =>
    obtain ⟨e, he⟩ := Option.isSome_iff_exists.mp hocc
    obtain ⟨flag, hst⟩ := h.roundChange (view, a) e.1 e.2 (FirstWinsMap.get?_eq_some_iff.mp he)
    exact Option.isSome_iff_exists.mpr ⟨(e.1, flag), FirstWinsMap.get?_eq_some_iff.mpr hst⟩

/-- An addition occupies no slot but that of its message. -/
theorem occupied_of_addMessage {m : IBFTMessage} {a : Address} {slot : Slot}
    (hocc : (msgs.addMessage a m).occupied slot = true) :
    msgs.occupied slot = true ∨ slot = m.slot a := by
  rw [ConsensusMessages.occupied_addMessage, Bool.or_eq_true] at hocc
  exact hocc.imp_right of_decide_eq_true

theorem IBFTMessage.view_slot (m : IBFTMessage) (a : Address) : (m.slot a).view = m.view := by
  cases m <;> rfl

/-- A run occupies only slots of its height, and none once its block is accepted. -/
theorem StoreStep.occupied (h : StoreStep cfg run msgs ev msgs') (hinv : run.Inv cfg K)
    {slot : Slot} (hocc : msgs'.occupied slot = true) :
    msgs.occupied slot = true ∨
      (slot.view.height = run.height ∧ run.phase.updated = false) := by
  -- What a run adds is of its view, and added before its block is accepted.
  have hadd : ∀ m : IBFTMessage, m.view = run.view → run.phase.updated = false →
      (msgs.addMessage cfg.address m).occupied slot = true →
        msgs.occupied slot = true ∨
          (slot.view.height = run.height ∧ run.phase.updated = false) := by
    intro m hview hphase hocc
    rcases occupied_of_addMessage hocc with hold | rfl
    · exact Or.inl hold
    · right
      rw [IBFTMessage.view_slot, hview]
      exact ⟨rfl, hphase⟩
  cases h with
  | same => exact Or.inl hocc
  | addProposal htask =>
    obtain ⟨hselect, -, -, hview, -⟩ := hinv.select_of_task htask
    exact hadd (.proposal _) hview (by rw [hselect]; rfl) hocc
  | addPrepare htask =>
    obtain ⟨hselect, -, -, hview, -⟩ := hinv.select_of_task htask
    exact hadd (.prepare _) hview (by rw [hselect]; rfl) hocc
  | addCommit htask =>
    obtain ⟨hselect, -, -, hview, -⟩ := hinv.select_of_task htask
    exact hadd (.commit _) hview (by rw [hselect]; rfl) hocc
  | addRoundChange hphase =>
    have hinvPhase := hinv.phase
    rw [hphase] at hinvPhase
    obtain ⟨-, -, -, hview, -⟩ := hinvPhase
    exact hadd (.roundChange _) hview (by rw [hphase]; rfl) hocc
  | queryProposal =>
    exact Or.inl ((ConsensusMessages.subStore_getValidProposalDigest _ _).occupied hocc)
  | takeProposal =>
    exact Or.inl ((ConsensusMessages.subStore_takeProposalMessage _).occupied hocc)
  | countPrepares =>
    exact Or.inl ((ConsensusMessages.subStore_getValidPrepareCount _ _).occupied hocc)
  | takePrepares =>
    exact Or.inl ((ConsensusMessages.subStore_takeValidPrepareMessages _ _ _).occupied hocc)
  | takeSeals =>
    exact Or.inl ((ConsensusMessages.subStore_takeValidCommitSeals _ _ _ _).occupied hocc)
  | takeRoundChanges =>
    exact Or.inl
      ((ConsensusMessages.subStore_takeValidRoundChangeMessages _ _ _ _).occupied hocc)
  | countRoundChanges =>
    exact Or.inl ((ConsensusMessages.subStore_getValidRoundChangeCount _ _).occupied hocc)
  | prune => exact Or.inl ((ConsensusMessages.subStore_prune _).occupied hocc)

/-! ## What pruning leaves behind -/

/-- The event does not call `run_height` for a height that the node has left behind. -/
def Node.CallsAbove (n : Node) : Event → Prop
  | .runHeight height => n.height < height
  | _ => True

instance (n : Node) : (ev : Event) → Decidable (n.CallsAbove ev)
  | .runHeight height => inferInstanceAs (Decidable (n.height < height))
  | .receive _ | .addPending | .round _ | .futureProposal _ | .futureRcc | .main _ | .cancel
  | .roundFinished | .futureProposalReady | .futureRccReady | .timeout =>
    inferInstanceAs (Decidable True)

/-- The slot is occupied, at a height that the node has left behind. -/
def Node.Stale (n : Node) (slot : Slot) : Prop :=
  n.messages.occupied slot = true ∧ slot.view.height ≤ n.height

/-- At most one slot is stale, or will be when the handler goes on. -/
structure Node.LeavesOne (n : Node) : Prop where
  one : ∀ slot slot', n.Stale slot → n.Stale slot' → slot = slot'
  none_of_pending : ∀ m sender, n.pending = some (m, sender) → m.view.height ≤ n.height →
    ∀ slot, ¬ n.Stale slot

/-- A run whose block is not yet accepted is above the height of the node. -/
def Node.RunsAbove (n : Node) : Prop :=
  ∀ run, n.run = some run → run.phase.updated = false → n.height < run.height

theorem Node.RunsAbove.step (h : n.RunsAbove) (hcalls : n.CallsAbove ev)
    (hstep : n.step cfg ev = some n') : n'.RunsAbove := by
  by_cases hother : ∀ run, n.run = some run → ¬ run.HandsOver ev
  · have hheight := Node.height_of_step hstep hother
    intro run' hrun' hphase
    rw [hheight]
    cases nodeStep_of_step hstep with
    | receive | addPending => exact h run' hrun' hphase
    | runHeight =>
      cases hrun'
      rw [(Run.start_same cfg n.messages _).1]
      exact hcalls
    | run hrun hrunstep =>
      cases hrun'
      rw [hrunstep.same.1]
      rw [hrunstep.updated_eq (hother _ hrun)] at hphase
      exact h _ hrun hphase
  · push Not at hother
    obtain ⟨run, hrun, env, block, rfl, hp⟩ := hother
    have hlt : n.height < run.height := h run hrun (by rw [hp]; rfl)
    obtain ⟨run', hrun', -, -, -, ⟨-, -, hp'⟩ | ⟨hle, -⟩⟩ :=
      Node.broadcastBlock_of_step hrun hp hstep
    · intro run'' hrun'' hphase
      rw [hrun'] at hrun''
      cases hrun''
      rw [hp'] at hphase
      cases hphase
    · exact absurd hlt hle

/-- The run waits to prune the store. -/
def Node.Prunes (n : Node) : Prop := ∃ run block, n.run = some run ∧ run.phase = .prune block

instance (n : Node) : Decidable n.Prunes :=
  match hrun : n.run with
  | none => .isFalse fun ⟨run, block, hsome, _⟩ => by
    rw [hrun] at hsome
    cases hsome
  | some run =>
    match hphase : run.phase with
    | .prune block => .isTrue ⟨run, block, hrun, hphase⟩
    | .addOwnRoundChange _ | .select | .takeFinalProposal _ | .broadcastBlock _
    | .timeoutTakeProposal | .timeoutTakePrepares _ | .broadcastRoundChange _ | .returned _
    | .panicked _ => .isFalse fun ⟨run', block, hsome, hprune⟩ => by
      rw [hrun] at hsome
      cases hsome
      rw [hphase] at hprune
      cases hprune

/-- The step that prunes leaves nothing stale. -/
theorem Node.not_stale_of_prune {block : FinalizedBlock} {env : Env} (hrun : n.run = some run)
    (hphase : run.phase = .prune block) (hstep : n.step cfg (.main env) = some n')
    (hmax : n'.height < n'.height + 1) (slot : Slot) : ¬ n'.Stale slot := by
  rintro ⟨hocc, hle⟩
  rw [Node.prune_of_step hrun hphase hstep] at hocc hle hmax
  simp only [ConsensusMessages.occupied_prune, Bool.and_eq_true, decide_eq_true_eq] at hocc
  exact absurd (UInt64.lt_of_lt_of_le hmax (UInt64.le_trans hocc.2 hle)) (UInt64.lt_irrefl _)

/-- No other step of a run adds a stale slot. -/
theorem Node.stale_of_runStep (hknown : n.StoreKnown cfg) (habove : n.RunsAbove)
    (hrun : n.run = some run) (hrunstep : RunStep cfg n.messages run ev msgs run') {slot : Slot}
    (hocc : msgs.occupied slot = true) (hle : slot.view.height ≤ n.height) : n.Stale slot := by
  rcases (hknown.storeStep hrun hrunstep).occupied (hknown.inv.run run hrun) hocc with
    hold | ⟨hheight, hphase⟩
  · exact ⟨hold, hle⟩
  · have hlt := habove run hrun hphase
    rw [← hheight] at hlt
    exact absurd (UInt64.lt_of_lt_of_le hlt hle) (UInt64.lt_irrefl _)

theorem Node.LeavesOne.of_stale (h : n.LeavesOne) (hpending : n'.pending = n.pending)
    (hheight : n'.height = n.height) (hstale : ∀ slot, n'.Stale slot → n.Stale slot) :
    n'.LeavesOne where
  one slot slot' hslot hslot' := h.one slot slot' (hstale slot hslot) (hstale slot' hslot')
  none_of_pending m sender hm hle slot hslot := by
    rw [hpending] at hm
    rw [hheight] at hle
    exact h.none_of_pending m sender hm hle slot (hstale slot hslot)

theorem Node.leavesOne_of_step (hknown : n.StoreKnown cfg) (habove : n.RunsAbove)
    (hold : ¬ n.Prunes → n.LeavesOne) (hstep : n.step cfg ev = some n')
    (hmax : n'.height < n'.height + 1) (hprunes : ¬ n'.Prunes) : n'.LeavesOne := by
  cases nodeStep_of_step hstep with
  | @receive m pending hpending =>
    have hone := hold hprunes
    refine ⟨hone.one, fun m' sender hm hle => ?_⟩
    -- What is checked now is above the height.
    obtain ⟨rfl, hcheck⟩ := hpending m' sender hm
    have hlt := ((checkConsensusMessage_eq_some_iff cfg).mp hcheck).1
    exact absurd (UInt64.lt_of_lt_of_le hlt hle) (UInt64.lt_irrefl _)
  | @addPending m sender hpending =>
    have hone := hold hprunes
    refine ⟨?_, fun m' a hm => by cases hm⟩
    intro slot slot' ⟨hocc, hle⟩ ⟨hocc', hle'⟩
    rcases occupied_of_addMessage hocc with hslot | rfl <;>
      rcases occupied_of_addMessage hocc' with hslot' | rfl
    · exact hone.one slot slot' ⟨hslot, hle⟩ ⟨hslot', hle'⟩
    · rw [IBFTMessage.view_slot] at hle'
      exact absurd ⟨hslot, hle⟩ (hone.none_of_pending m sender hpending hle' slot)
    · rw [IBFTMessage.view_slot] at hle
      exact absurd ⟨hslot', hle'⟩ (hone.none_of_pending m sender hpending hle slot')
    · rfl
  | @runHeight height past hpast =>
    have hready : ¬ n.Prunes := by
      rintro ⟨run, block, hrun, hphase⟩
      have hcall : n.runHeight cfg height = some _ := hstep
      unfold Node.runHeight at hcall
      rw [hrun] at hcall
      simp only [hphase] at hcall
      cases hcall
    exact (hold hready).of_stale rfl rfl fun slot hslot => hslot
  | @run ev run run' msgs height hrun hrunstep =>
    by_cases hready : n.Prunes
    · obtain ⟨run₀, block, hrun₀, hphase⟩ := hready
      rw [hrun] at hrun₀
      cases hrun₀
      have hnone : ∀ slot,
          ¬ Node.Stale { n with messages := msgs, run := some run', height } slot := by
        cases hrunstep with
        | prune => exact Node.not_stale_of_prune hrun hphase hstep hmax
        | round | futureProposal | futureRcc => exact absurd ⟨_, block, rfl, hphase⟩ hprunes
        | addOwnRoundChange hp | finalProposalMissing hp | takeFinalProposal hp | broadcastBlock hp
        | timeoutProposalMissing hp | timeoutTakeProposal hp | timeoutTakePrepares hp
        | broadcastRoundChange hp | cancel hp | roundFinished hp | futureProposalReady hp
        | futureRccReady hp | timeoutCommit hp | timeoutEarly hp =>
          rw [hphase] at hp
          cases hp
      exact ⟨fun slot _ hslot => absurd hslot (hnone slot), fun _ _ _ _ slot => hnone slot⟩
    · have hheight : height = n.height := by
        by_cases hover : run.HandsOver ev
        · obtain ⟨env, block, rfl, hp⟩ := hover
          obtain ⟨run'', hrun'', -, -, -, ⟨-, -, hp'⟩ | ⟨-, hsame, -⟩⟩ :=
            Node.broadcastBlock_of_step hrun hp hstep
          · exact absurd ⟨run'', block, hrun'', hp'⟩ hprunes
          · exact hsame
        · refine Node.height_of_step hstep fun run₀ hrun₀ => ?_
          rw [hrun] at hrun₀
          cases hrun₀
          exact hover
      subst hheight
      exact (hold hready).of_stale rfl rfl fun slot ⟨hocc, hle⟩ =>
        Node.stale_of_runStep hknown habove hrun hrunstep hocc hle

theorem Node.leavesOne_init (cfg : Config) (first : UInt64) : (Node.init cfg first).LeavesOne := by
  have hnone : ∀ slot, ¬ (Node.init cfg first).Stale slot := by
    intro slot hslot
    have hmem := ((StoreHistory.tracks_new cfg.address slot).mp hslot.1).1
    exact absurd hmem List.not_mem_nil
  exact ⟨fun slot _ hslot => absurd hslot (hnone slot), fun _ _ _ _ slot => hnone slot⟩

theorem Node.runsAbove_of_reachable {first : UInt64}
    (h : ReachableWithin (Node.step cfg) Node.CallsAbove (Node.init cfg first) n) :
    n.RunsAbove := by
  induction h with
  | refl => exact fun run hrun => by cases hrun
  | tail _ hcalls hstep ih => exact ih.step hcalls hstep

/-- **Pruning leaves at most one message behind**: while `run_height` is only called for heights
above that of the node, then at any time but just before the pruning at most one stored message is
of a height that the node has left behind, and none is while the handler still has such a message
to add. -/
theorem pruning_leaves_one {first : UInt64}
    (h : ReachableWithin (Node.step cfg) Node.CallsAbove (Node.init cfg first) n)
    (hmax : n.height < n.height + 1) (hprunes : ¬ n.Prunes) : n.LeavesOne := by
  revert hmax hprunes
  induction h with
  | refl => exact fun _ _ => Node.leavesOne_init cfg first
  | @tail n n' ev hreach hcalls hstep ih =>
    intro hmax hprunes
    -- The height was not greater before.
    have hbefore : n.height < n.height + 1 := by
      rcases Node.updatedHeights_of_step hstep with ⟨hsame, -⟩ | ⟨hlt, -⟩
      · rwa [← hsame]
      · rw [UInt64.lt_iff_toNat_lt] at hlt ⊢
        rw [UInt64.toNat_add, UInt64.toNat_one, Nat.mod_eq_of_lt]
        · omega
        · have htop := n'.height.toNat_lt
          omega
    exact Node.leavesOne_of_step (Node.storeKnown_of_reachable hreach.reachable)
      (Node.runsAbove_of_reachable hreach) (ih hbefore) hstep hmax hprunes

/-- One of four validators finalizes height 1 while its handler has checked a last commit for the
height, which it adds after the pruning. -/
def lateEvents : List Event :=
  sealingEvents ++ arrives (.commit (fourCommit 3 1)) ++ List.replicate 2 (.round (modelEnv [7])) ++
    [.roundFinished, .main (modelEnv [7]), .receive (.commit (fourCommit 1 1)), .main (modelEnv [7]),
      .main (modelEnv [7]), .addPending]

def lateNode : Node :=
  (exec (Node.step fourConfig) (Node.init fourConfig 0) lateEvents).get (by decide +kernel)

theorem pruning_leaves_one_late :
    lateNode.Stale (.commit (fourView 1) (modelAddress 1)) ∧ lateNode.LeavesOne :=
  ⟨⟨by decide +kernel, by decide +kernel⟩, pruning_leaves_one
    (reachableWithin_get (by decide +kernel) _) (by decide +kernel) (by decide +kernel)⟩

/-! ## Heights without limit -/

section Overfill

variable (cfg : Config) (key : SecretKey) (first : UInt64)

/-- A validator's commit for the height with the given distance from the first one. -/
def overfillCommit (i : ℕ) : CommitMessageSigned :=
  Config.ownCommit { cfg with key }
    { height := first + UInt64.ofNat (i + 1), round := 0 } (digestBlock cfg.crypto [] 0)

/-- The commits arrive, one after the other, at a node that does nothing else. -/
def overfillEvents (count : ℕ) : List Event :=
  (List.range count).flatMap fun i =>
    [.receive (.commit (overfillCommit cfg key first i)), .addPending]

variable {cfg key first}

/-- The slot of the commit. -/
def overfillSlot (cfg : Config) (key : SecretKey) (first : UInt64) (i : ℕ) : Slot :=
  .commit { height := first + UInt64.ofNat (i + 1), round := 0 } (cfg.crypto.address key)

/-- The handler lets the commit through. -/
theorem check_overfillCommit {i : ℕ} (hother : cfg.crypto.address key ≠ cfg.address)
    (hval : ∀ height, first < height →
      cfg.validatorManager.isValidator (cfg.crypto.address key) height = true)
    (hfits : first.toNat + (i + 1) < 2 ^ 64) :
    checkConsensusMessage cfg first (.commit (overfillCommit cfg key first i)) =
      .ok (some (cfg.crypto.address key)) := by
  have hlt : first < first + UInt64.ofNat (i + 1) := by
    rw [UInt64.lt_iff_toNat_lt, UInt64.toNat_add, UInt64.toNat_ofNat']
    omega
  have hround : (0 : UInt8) ≤ maxRound := by decide
  refine (checkConsensusMessage_eq_some_iff cfg).mpr ⟨hlt, hround, ?_, hother, hval _ hlt, ?_⟩
  · exact CommitMessage.recoverSigner_intoSigned _ _ _
  · exact CommitMessage.recoverCommitSealSigner_new _ _ _ _

theorem exec_overfill (hother : cfg.crypto.address key ≠ cfg.address)
    (hval : ∀ height, first < height →
      cfg.validatorManager.isValidator (cfg.crypto.address key) height = true) (count : ℕ)
    (hfits : first.toNat + count < 2 ^ 64) :
    ∃ n, exec (Node.step cfg) (Node.init cfg first) (overfillEvents cfg key first count) = some n ∧
      n.height = first ∧ n.pending = none ∧ n.run = none ∧
      ∀ i < count, n.messages.occupied (overfillSlot cfg key first i) = true := by
  induction count with
  | zero => exact ⟨_, rfl, rfl, rfl, rfl, fun i hi => absurd hi (Nat.not_lt_zero i)⟩
  | succ count ih =>
    obtain ⟨n, hexec, hheight, hpending, hrun, hocc⟩ := ih (by omega)
    let m : IBFTMessage := .commit (overfillCommit cfg key first count)
    have hreceive : n.step cfg (.receive m) = some { n with
        pending := some (m, cfg.crypto.address key), received := m :: n.received } := by
      show n.receive cfg m = _
      rw [Node.receive, hpending]
      simp only
      rw [hheight, check_overfillCommit hother hval hfits]
    refine ⟨{ n with
      messages := n.messages.addMessage (cfg.crypto.address key) m
      pending := none
      received := m :: n.received }, ?_, hheight, rfl, hrun, fun i hi => ?_⟩
    · rw [overfillEvents, List.range_succ, List.flatMap_append, exec_append]
      refine ⟨n, hexec, ?_⟩
      rw [List.flatMap_singleton, exec_cons]
      refine ⟨_, hreceive, ?_⟩
      rfl
    · rw [ConsensusMessages.occupied_addMessage]
      rcases Nat.lt_succ_iff_lt_or_eq.mp hi with hlt | rfl
      · rw [hocc i hlt]
        rfl
      · rw [Bool.or_eq_true]
        exact Or.inr (decide_eq_true rfl)

variable (cfg) in
/-- A commit of the address reaches the node, or is added to the store. -/
def Event.CommitsOf (address : Address) : Event → Prop
  | .receive (.commit m) => m.recoverSigner cfg.crypto = .ok address
  | .addPending => True
  | _ => False

theorem overfillEvents_commitsOf {count : ℕ} :
    ∀ ev ∈ overfillEvents cfg key first count, ev.CommitsOf cfg (cfg.crypto.address key) := by
  intro ev hev
  obtain ⟨i, -, hev⟩ := List.mem_flatMap.mp hev
  rcases List.mem_pair.mp hev with rfl | rfl
  · exact CommitMessage.recoverSigner_intoSigned _ _ _
  · exact trivial

theorem overfillHeight_injOn {count : ℕ} (hfits : first.toNat + count < 2 ^ 64) :
    Set.InjOn (fun i => first + UInt64.ofNat (i + 1)) (Finset.range count) := by
  intro i hi j hj heq
  have hi := Finset.mem_range.mp (Finset.mem_coe.mp hi)
  have hj := Finset.mem_range.mp (Finset.mem_coe.mp hj)
  have htoNat := congrArg UInt64.toNat heq
  simp only [UInt64.toNat_add, UInt64.toNat_ofNat'] at htoNat
  omega

end Overfill

/-- **The store is not bounded over the heights**: a single validator other than the node can make
it hold as many commits as there are heights above that of the node, one for each, by sending
commits alone. -/
theorem heights_unbounded (cfg : Config) (key : SecretKey) {first : UInt64}
    (hother : cfg.crypto.address key ≠ cfg.address)
    (hval : ∀ height, first < height →
      cfg.validatorManager.isValidator (cfg.crypto.address key) height = true) {count : ℕ}
    (hfits : first.toNat + count < 2 ^ 64) :
    ∃ events n, exec (Node.step cfg) (Node.init cfg first) events = some n ∧
      (∀ ev ∈ events, ev.CommitsOf cfg (cfg.crypto.address key)) ∧ n.height = first ∧
      ∃ heights : Finset UInt64, heights.card = count ∧ ∀ height ∈ heights,
        n.messages.occupied (.commit { height, round := 0 } (cfg.crypto.address key)) = true := by
  obtain ⟨n, hexec, hheight, -, -, hocc⟩ := exec_overfill hother hval count hfits
  refine ⟨_, n, hexec, overfillEvents_commitsOf, hheight,
    (Finset.range count).image fun i => first + UInt64.ofNat (i + 1), ?_, ?_⟩
  · rw [Finset.card_image_of_injOn (overfillHeight_injOn hfits), Finset.card_range]
  · intro height hmem
    obtain ⟨i, hi, rfl⟩ := Finset.mem_image.mp hmem
    exact hocc i (Finset.mem_range.mp hi)

/-- The other one of two validators fills every height. -/
theorem heights_unbounded_duo :
    ∃ events n, exec (Node.step (duoDeployment.config 0)) (Node.init (duoDeployment.config 0) 0)
        events = some n ∧
      (∀ ev ∈ events, ev.CommitsOf (duoDeployment.config 0) (modelAddress 1)) ∧ n.height = 0 ∧
      ∃ heights : Finset UInt64, heights.card = 2 ^ 64 - 1 ∧ ∀ height ∈ heights,
        n.messages.occupied (.commit { height, round := 0 } (modelAddress 1)) = true :=
  heights_unbounded (duoDeployment.config 0) (modelKey 1) (by decide +kernel)
    (fun height _ => (duoDeployment.isValidator_iff _ _).mpr
      (by simp [duoDeployment, mockDeployment, modelAddress])) (by decide)

end Tonic
