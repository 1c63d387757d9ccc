/-
# What is sent for the first round stays stored

Until its run has the seals, a node takes nothing out of its store that trusted senders sent
it for the first round: queries drop what is not for the block, and what is taken is of other
views.  So a message that has reached the node waits to be added or is stored, and so are the
node's own.
-/
import Tonic.FirstRound

namespace Tonic

open Transition ConsensusMessages

variable {cfg : Config} {n n' : Node} {run run' : Run} {ev : Event} {env : Env} {height : UInt64}
  {b : RawBlock} {msgs msgs' : ConsensusMessages} {K K' : Knowledge} {trusted : Address → Prop}

/-! ## Until the seals are taken -/

/-- The run of the height has not begun, or its round goes on. -/
def Node.Open (height : UInt64) (n : Node) : Prop :=
  ∀ run ∈ n.runs, run.height = height →
    run.phase = .select ∧ ∀ seals, run.roundTask ≠ some (.finished seals)

theorem Node.Open.current (h : n.Open height) (hrun : n.run = some run) (hheight : run.height = height) :
    run.phase = .select ∧ ∀ seals, run.roundTask ≠ some (.finished seals) :=
  h run (List.mem_append_right _ (Option.mem_toList.mpr hrun)) hheight

/-- A round that goes on after a step went on before it. -/
theorem Node.open_of_step
    (hcalm : ∀ run, n.run = some run → run.height = height → run.Calm cfg b n.knowledge)
    (hev : n.Undisturbed height b ev) (hstep : n.step cfg ev = some n') (hopen : n'.Open height) :
    n.Open height := by
  intro run hmem hheight
  cases nodeStep_of_step hstep with
  | receive | addPending => exact hopen run hmem hheight
  | runHeight hpast =>
    subst hpast
    exact hopen run (List.mem_append_left _ hmem) hheight
  | @run ev old new msgs newHeight hrun hrunstep =>
    rcases List.mem_append.mp hmem with hmem | hmem
    · exact hopen run (List.mem_append_left _ hmem) hheight
    · cases Option.mem_toList.mp hmem |>.symm.trans hrun
      -- What ends the round leaves no open round behind.
      have hnew := hopen.current rfl (hrunstep.same.1.trans hheight)
      have hphase := (hcalm run hrun hheight).phase
      have hpatient := hev.patient run hrun hheight
      cases hrunstep with
      | round htask hs =>
        refine ⟨hnew.1, ?_⟩
        intro seals heq
        rw [htask] at heq
        cases heq
        cases hs
      | futureProposal | futureRcc => exact hnew
      | addOwnRoundChange hp | timeoutProposalMissing hp | timeoutTakeProposal hp
      | timeoutTakePrepares hp | broadcastRoundChange hp =>
        rw [hp] at hphase
        exact absurd hphase id
      | finalProposalMissing | takeFinalProposal | prune | roundFinished => cases hnew.1
      | broadcastBlock _ hnext =>
        rcases hnext with rfl | ⟨why, rfl⟩ <;> cases hnew.1
      | cancel => exact absurd rfl hpatient.2
      | timeoutCommit | timeoutEarly => exact absurd rfl hpatient.1
      | futureProposalReady _ htask => exact absurd htask ((hcalm run hrun hheight).monitors _).1
      | futureRccReady _ htask => exact absurd htask ((hcalm run hrun hheight).monitors _).2

/-- The height of an open round is not finalized. -/
theorem Node.Sheltered.height_lt_of_open (h : n.Sheltered cfg trusted height b)
    (hopen : n.Open height) : n.height < height := by
  rcases h.finalized with hlt | ⟨run, hrun, hheight, hupdated⟩
  · exact hlt
  · rw [(hopen run hrun hheight).1] at hupdated
    cases hupdated

/-! ## The slots of the first round -/

/-- The slot of a proposal of the first round, or of a trusted sender's vote in it. -/
def Slot.Kept (trusted : Address → Prop) (height : UInt64) : Slot → Prop
  | .proposal v => v = firstView height
  | .prepare v a | .commit v a => v = firstView height ∧ trusted a
  | .roundChange _ _ => False

theorem Slot.Kept.view_height {slot : Slot} (h : slot.Kept trusted height) :
    slot.view.height = height := by
  cases slot with
  | proposal v => exact congrArg View.height h
  | prepare v a | commit v a => exact congrArg View.height h.1
  | roundChange => exact absurd h id

/-- A query of another height empties no slot of the height. -/
theorem StoreOp.empties_of_height {op : StoreOp} {slot : Slot} {v : View}
    (hop : op = .takeProposalMessage v ∨ (∃ f, op = .getValidPrepareCount v f) ∨
      (∃ env f, op = .takeValidPrepareMessages env v f) ∨
      ∃ env f q, op = .takeValidCommitSeals env v f q)
    (hne : slot.view ≠ v) : op.empties msgs slot = false := by
  rcases hop with rfl | ⟨f, rfl⟩ | ⟨env, f, rfl⟩ | ⟨env, f, q, rfl⟩ <;>
    cases slot <;> simp_all [StoreOp.empties, Slot.view]

theorem ConsensusMessages.occupied_of_empties (op : StoreOp) {slot : Slot}
    (hadd : ∀ sender m, op ≠ .add sender m) (hprune : ∀ h, op ≠ .prune h)
    (hempties : op.empties msgs slot = false) (hocc : msgs.occupied slot = true) :
    (op.apply msgs).occupied slot = true := by
  rw [occupied_apply hadd hprune, hocc, hempties]
  rfl

theorem ConsensusMessages.occupied_of_add {sender : Address} {m : IBFTMessage} {slot : Slot}
    (hocc : msgs.occupied slot = true) : (msgs.addMessage sender m).occupied slot = true := by
  rw [occupied_addMessage, hocc]
  rfl

/-- The seals are taken only at the end of the round. -/
theorem RoundTask.finished_of_quorum {view : View} {runState : RunState} {d : Digest} {rx : Receiver}
    {s : TaskStep RoundTask} (hs : (takeSeals d rx).step cfg env view runState msgs = some s)
    (hquorum : cfg.validatorManager.quorum view.height ≤ (viewEntries
      (retainView msgs.commitMessages view (fun m => m.proposedBlockDigest = d)) view).length) :
    ∃ seals, s.task = .finished seals := by
  cases hs
  show ∃ seals, sealsTaken cfg view d rx (msgs.takeValidCommitSeals env view
    (fun m => m.proposedBlockDigest = d) (cfg.validatorManager.quorum view.height)).1 = .finished seals
  rw [takeValidCommitSeals, if_pos hquorum, sealsTaken, if_neg (not_lt.mpr hquorum)]
  exact ⟨_, rfl⟩

/-- A test that all stored messages of a slot pass rejects none. -/
theorem FirstWinsMap.any_not_eq_false {κ T : Type} [DecidableEq κ] {m : FirstWinsMap κ T} {k : κ}
    {f : T → Bool} (hall : ∀ t, m.Stores k t → f t = true) :
    (m.get? k).any (fun t => !f t) = false := by
  cases hget : m.get? k with
  | none => rfl
  | some t => simp [hall t (FirstWinsMap.get?_eq_some_iff.mp hget)]

/-- A query of the prepares drops no trusted one. -/
theorem Node.Sheltered.empties_countPrepares (h : n.Sheltered cfg trusted height b) {d : Digest}
    (hd : d = digestBlock cfg.crypto b 0) {slot : Slot} (hkept : slot.Kept trusted height) :
    (StoreOp.getValidPrepareCount (firstView height) (fun m => m.proposedBlockDigest = d)).empties
      n.messages slot = false := by
  cases slot with
  | prepare v a =>
    obtain ⟨rfl, htrusted⟩ := hkept
    have hany := FirstWinsMap.any_not_eq_false (m := n.messages.prepareMessages)
      (k := (firstView height, a)) (f := fun m => decide (m.proposedBlockDigest = d))
      (fun m hm => decide_eq_true (hd ▸ h.prepare a m htrusted hm))
    simp only [StoreOp.empties, hany]
    simp
  | _ => rfl

/-- A query of the commits drops no trusted one, as long as they are too few. -/
theorem Node.Sheltered.empties_takeSeals (h : n.Sheltered cfg trusted height b) {d : Digest}
    (hd : d = digestBlock cfg.crypto b 0) {quorum : ℕ}
    (hfew : ¬ quorum ≤ (viewEntries (retainView n.messages.commitMessages (firstView height)
      (fun m => m.proposedBlockDigest = d)) (firstView height)).length)
    {slot : Slot} (hkept : slot.Kept trusted height) :
    (StoreOp.takeValidCommitSeals env (firstView height) (fun m => m.proposedBlockDigest = d)
      quorum).empties n.messages slot = false := by
  cases slot with
  | commit v a =>
    obtain ⟨rfl, htrusted⟩ := hkept
    have hany := FirstWinsMap.any_not_eq_false (m := n.messages.commitMessages)
      (k := (firstView height, a)) (f := fun m => decide (m.proposedBlockDigest = d))
      (fun m hm => decide_eq_true (hd ▸ h.commit a m htrusted hm))
    simp only [StoreOp.empties, hany, hfew]
    simp
  | _ => rfl

/-- A step of the round task keeps the slots. -/
theorem Node.Sheltered.occupied_round (h : n.Sheltered cfg trusted height b)
    (hcalm : ∀ run, n.run = some run → run.height = height → run.Calm cfg b n.knowledge)
    (hrun : n.run = some run) {task : RoundTask} {s : TaskStep RoundTask}
    (htask : run.roundTask = some task)
    (hs : task.step cfg env run.view run.runState n.messages = some s)
    (hopen : run.height = height → ∀ seals, s.task ≠ .finished seals) {slot : Slot}
    (hkept : slot.Kept trusted height) (hocc : n.messages.occupied slot = true) :
    s.messages.occupied slot = true := by
  have hstore := h.known.store.storeStep hrun (.round htask hs)
  -- A run of another height looks at other slots.
  have hother : run.height ≠ height → slot.view ≠ run.view := by
    intro hne heq
    exact hne ((congrArg View.height heq).symm.trans hkept.view_height)
  generalize hmsgs : s.messages = msgs' at hstore
  cases hstore with
  | same => exact hocc
  | @addProposal _ p => exact occupied_of_add (m := .proposal p) hocc
  | @addPrepare _ m => exact occupied_of_add (m := .prepare m) hocc
  | @addCommit _ m => exact occupied_of_add (m := .commit m) hocc
  | @queryProposal _ env' v =>
    exact occupied_of_empties (.getValidProposalDigest v (proposalVerifyFn cfg env' v))
      (by simp) (by simp) (by cases slot <;> rfl) hocc
  | @countPrepares _ d rx htask' =>
    refine occupied_of_empties (.getValidPrepareCount run.view _) (by simp) (by simp) ?_ hocc
    by_cases hheight : run.height = height
    · have hrunCalm := hcalm run hrun hheight
      rw [hrunCalm.view_eq hheight]
      exact h.empties_countPrepares ((hrunCalm.task _ htask').digest _ rfl) hkept
    · exact StoreOp.empties_of_height (Or.inr (Or.inl ⟨_, rfl⟩)) (hother hheight)
  | @takeSeals _ d rx htask' =>
    refine occupied_of_empties (.takeValidCommitSeals env run.view _ _) (by simp) (by simp) ?_
      hocc
    by_cases hheight : run.height = height
    · subst hheight
      have hrunCalm := hcalm run hrun rfl
      obtain rfl : task = .takeSeals d rx := Option.some.inj (htask.symm.trans htask')
      have hfew := fun hquorum => RoundTask.finished_of_quorum hs hquorum
      rw [hrunCalm.view_eq rfl] at hfew ⊢
      refine h.empties_takeSeals ((hrunCalm.task _ htask').digest _ rfl) ?_ hkept
      intro hquorum
      -- With a quorum of commits the step would have ended the round.
      obtain ⟨seals, hfinished⟩ := hfew hquorum
      exact hopen rfl seals hfinished
    · exact StoreOp.empties_of_height (Or.inr (Or.inr (Or.inr ⟨_, _, _, rfl⟩))) (hother hheight)
  | @takeRoundChanges _ rx htask' =>
    refine occupied_of_empties (.takeValidRoundChangeMessages env run.view _ _) (by simp)
      (by simp) ?_ hocc
    cases slot with
    | roundChange => exact absurd hkept id
    | _ => rfl

/-- **One step of the node** empties no slot of an open round. -/
theorem Node.Sheltered.occupied_step (h : n.Sheltered cfg trusted height b)
    (hcalm : ∀ run, n.run = some run → run.height = height → run.Calm cfg b n.knowledge)
    (hopen : n.Open height) (hopen' : n'.Open height) (hstep : n.step cfg ev = some n')
    {slot : Slot} (hkept : slot.Kept trusted height) (hocc : n.messages.occupied slot = true) :
    n'.messages.occupied slot = true := by
  have hcases := nodeStep_of_step hstep
  cases hcases with
  | receive | runHeight => exact hocc
  | addPending => exact occupied_of_add hocc
  | @run ev run run' msgs newHeight hrun hrunstep =>
    have hother : run.phase ≠ .select → slot.view ≠ run.view := by
      intro hphase heq
      exact hphase (hopen.current hrun ((congrArg View.height heq).symm.trans hkept.view_height)).1
    -- Outside its `select!` the run is of another height, and so is what it takes.
    have htake : run.phase ≠ .select →
        ((n.messages.takeProposalMessage run.view).2).occupied slot = true := by
      intro hphase
      exact occupied_of_empties (.takeProposalMessage run.view) (by simp) (by simp)
        (StoreOp.empties_of_height (Or.inl rfl) (hother hphase)) hocc
    cases hrunstep with
    | round htask hs =>
      refine h.occupied_round hcalm hrun htask hs ?_ hkept hocc
      intro hheight seals heq
      exact (hopen'.current rfl hheight).2 seals (congrArg some heq)
    | @futureProposal env task s htask hs =>
      rcases (FutureProposalTask.step_spec h.known.store.inv.round_le_of_storedProposal
        ((h.known.store.inv.run run hrun).proposalTask task htask) hs).2 with
        ⟨-, hmsgs⟩ | ⟨v, -, -, hmsgs⟩
      · exact (congrArg (occupied · slot) hmsgs).trans hocc
      · refine (congrArg (occupied · slot) hmsgs).trans ?_
        exact occupied_of_empties (.getValidProposalDigest v (proposalVerifyFn cfg env v))
          (by simp) (by simp) (by cases slot <;> rfl) hocc
    | @futureRcc task s htask hs =>
      rcases (FutureRccTask.step_spec ((h.known.store.inv.run run hrun).rccTask task htask) hs).2.2
        with hmsgs | ⟨v, hmsgs⟩
      · exact (congrArg (occupied · slot) hmsgs).trans hocc
      · refine (congrArg (occupied · slot) hmsgs).trans ?_
        refine occupied_of_empties (.getValidRoundChangeCount v _) (by simp) (by simp) ?_ hocc
        cases slot with
        | roundChange => exact absurd hkept id
        | _ => rfl
    | @addOwnRoundChange _ rc => exact occupied_of_add (m := .roundChange rc) hocc
    | finalProposalMissing hp | takeFinalProposal hp | timeoutProposalMissing hp
    | timeoutTakeProposal hp => exact htake (by simp [hp])
    | @timeoutTakePrepares env p _ hp =>
      exact occupied_of_empties
        (.takeValidPrepareMessages env run.view
          (fun m => m.proposedBlockDigest = p.proposedBlockDigest)) (by simp) (by simp)
        (StoreOp.empties_of_height (Or.inr (Or.inr (Or.inl ⟨_, _, rfl⟩))) (hother (by simp [hp]))) hocc
    | prune hp =>
      have hpruned := congrArg Node.messages (Node.prune_of_step hrun hp hstep)
      refine (congrArg (occupied · slot) hpruned).trans ?_
      show (n.messages.prune (n.height + 1)).occupied slot = true
      -- Pruning goes up to the finalized height, which is lower.
      have hlt := h.height_lt_of_open hopen
      have hle : n.height + 1 ≤ slot.view.height := by
        rw [hkept.view_height]
        rw [UInt64.lt_iff_toNat_lt] at hlt
        rw [UInt64.le_iff_toNat_le, UInt64.toNat_add]
        have := height.toNat_lt
        simp only [UInt64.reduceToNat]
        omega
      rw [occupied_prune, hocc, decide_eq_true hle]
      rfl
    | _ => exact hocc

/-! ## What is kept -/

/-- The message that the round task is about to add to the store. -/
def RoundTask.adding : RoundTask → Option IBFTMessage
  | .addProposal p => some (.proposal p)
  | .addPrepare m => some (.prepare m)
  | .addCommit m => some (.commit m)
  | _ => none

/-- The node is about to add its own message. -/
def Node.Adding (n : Node) (m : IBFTMessage) : Prop :=
  ∃ run task, n.run = some run ∧ run.roundTask = some task ∧ task.adding = some m

/-- What has reached the node for the first round of the height from trusted senders waits to be
added or is stored. -/
structure Node.Keeps (cfg : Config) (trusted : Address → Prop) (height : UInt64) (n : Node) : Prop where
  peers : ∀ m a, m ∈ n.received → m.recoverSigner cfg.crypto = .ok a → a ≠ cfg.address → trusted a →
    m.Admissible cfg a → m.view = firstView height →
    n.pending = some (m, a) ∨ n.messages.occupied (m.slot a) = true
  own : ∀ m, .broadcast m ∈ n.history → m.view = firstView height →
    n.Adding m ∨ n.messages.occupied (m.slot cfg.address) = true

/-- The slots of admissible messages of the first round are kept. -/
theorem IBFTMessage.Admissible.slot_kept {m : IBFTMessage} {a : Address} (h : m.Admissible cfg a)
    (htrusted : trusted a) (hview : m.view = firstView height) : (m.slot a).Kept trusted height := by
  cases m with
  | proposal p => exact hview
  | prepare m | commit m => exact ⟨hview, htrusted⟩
  | roundChange m => exact absurd (congrArg View.round hview) h.2

theorem IBFTMessage.IsFor.slot_kept {c : Crypto} {m : IBFTMessage} {a : Address} (h : m.IsFor c b)
    (htrusted : trusted a) (hview : m.view = firstView height) : (m.slot a).Kept trusted height := by
  cases m with
  | proposal p => exact hview
  | prepare m | commit m => exact ⟨hview, htrusted⟩
  | roundChange m => exact absurd h id

/-- The handler with the next message. -/
theorem Node.receive_of_step {m : IBFTMessage} (hstep : n.step cfg (.receive m) = some n') :
    n.pending = none ∧ n'.received = m :: n.received ∧ n'.messages = n.messages ∧
      ∀ a, checkConsensusMessage cfg n.height m = .ok (some a) → n'.pending = some (m, a) := by
  have hreceive : n.receive cfg m = some n' := hstep
  unfold Node.receive at hreceive
  split at hreceive
  · cases hreceive
  next hpending =>
    cases hreceive
    refine ⟨hpending, rfl, rfl, ?_⟩
    intro a hcheck
    simp only [hcheck]

/-- `run_height` is called when the run before is over. -/
theorem Node.over_of_runHeight {newHeight : UInt64}
    (hstep : n.step cfg (.runHeight newHeight) = some n') (hrun : n.run = some run) :
    run.phase ≠ .select := by
  have hcall : n.runHeight cfg newHeight = some n' := hstep
  rw [Node.runHeight, hrun] at hcall
  simp only at hcall
  split at hcall
  next hp => simp [hp]
  next hp => simp [hp]
  next => cases hcall

/-- **One step** keeps what peers have sent. -/
theorem Node.Sheltered.keeps_peers_step (h : n.Sheltered cfg trusted height b)
    (hkeeps : n.Keeps cfg trusted height) (hopen : n.Open height)
    (hslots : ∀ slot : Slot, slot.Kept trusted height → n.messages.occupied slot = true →
      n'.messages.occupied slot = true)
    (hstep : n.step cfg ev = some n') :
    ∀ m a, m ∈ n'.received → m.recoverSigner cfg.crypto = .ok a → a ≠ cfg.address → trusted a →
      m.Admissible cfg a → m.view = firstView height →
      n'.pending = some (m, a) ∨ n'.messages.occupied (m.slot a) = true := by
  intro m a hm hrec hne htrusted hadm hview
  have hold : m ∈ n.received →
      n.pending = some (m, a) ∨ n'.messages.occupied (m.slot a) = true := by
    intro hmem
    rcases hkeeps.peers m a hmem hrec hne htrusted hadm hview with hpending | hocc
    · exact Or.inl hpending
    · exact Or.inr (hslots _ (hadm.slot_kept htrusted hview) hocc)
  cases ev with
  | receive m₀ =>
    obtain ⟨hnone, hreceived, -, hcheck⟩ := Node.receive_of_step hstep
    rw [hreceived] at hm
    rcases List.mem_cons.mp hm with rfl | hm
    · left
      -- The handler lets it pass, since its height is not finalized yet.
      apply hcheck
      rw [checkConsensusMessage_eq_some_iff, hview]
      exact ⟨h.height_lt_of_open hopen, UInt8.zero_le, hrec, hne, hadm⟩
    · rcases hold hm with hpending | hocc
      · rw [hnone] at hpending
        cases hpending
      · exact Or.inr hocc
  | addPending =>
    cases nodeStep_of_step hstep with
    | @addPending m₀ sender hpending =>
      right
      rcases hold hm with heq | hocc
      · rw [hpending] at heq
        cases heq
        show (n.messages.addMessage a m).occupied (m.slot a) = true
        rw [occupied_addMessage, decide_eq_true rfl, Bool.or_true]
      · exact hocc
    | run _ hrunstep => cases hrunstep
  | runHeight =>
    cases nodeStep_of_step hstep with
    | runHeight => exact hold hm
    | run _ hrunstep => cases hrunstep
  | _ =>
    cases nodeStep_of_step hstep with
    | run => exact hold hm

/-- The steps of the round task that add a message add it. -/
theorem RoundTask.occupied_of_adding {view : View} {runState : RunState} {task : RoundTask}
    {s : TaskStep RoundTask} {m : IBFTMessage} (hadding : task.adding = some m)
    (hs : task.step cfg env view runState msgs = some s) :
    s.messages.occupied (m.slot cfg.address) = true := by
  have hadd : ∀ m : IBFTMessage,
      (msgs.addMessage cfg.address m).occupied (m.slot cfg.address) = true := by
    intro m
    rw [occupied_addMessage, decide_eq_true rfl, Bool.or_true]
  cases task with
  | addProposal p =>
    cases hadding
    cases hs
    exact hadd (.proposal p)
  | addPrepare m =>
    cases hadding
    cases hs
    exact hadd (.prepare m)
  | addCommit m =>
    cases hadding
    cases hs
    exact hadd (.commit m)
  | _ => cases hadding

/-- A message is added in the step after its broadcast. -/
theorem RoundTask.adding_of_outgoing {view : View} {runState : RunState} {task : RoundTask}
    {s : TaskStep RoundTask} {m : IBFTMessage} (hout : task.outgoing = some m)
    (hs : task.step cfg env view runState msgs = some s) : s.task.adding = some m := by
  cases task with
  | broadcastProposal | broadcastPrepare | broadcastCommit =>
    cases hout
    cases hs
    rfl
  | _ => cases hout

/-- What a task is about to add is of its view. -/
theorem Run.Inv.view_of_adding (h : run.Inv cfg K) {task : RoundTask}
    (htask : run.roundTask = some task) {m : IBFTMessage} (hadding : task.adding = some m) :
    m.view = run.view := by
  have hinv := (h.select_of_task htask).2
  cases task with
  | addProposal | addPrepare | addCommit =>
    cases hadding
    exact hinv.2.2.1
  | _ => cases hadding

/-- A step of the run that broadcasts nothing adds nothing to what the node has broadcast. -/
theorem Node.broadcast_mem_of_quiet (hrun : n.run = some run) {actions : List Action}
    (hlog : run'.log = run.log ++ actions) {m : IBFTMessage} (hquiet : .broadcast m ∉ actions)
    {newHeight : UInt64}
    (hm : .broadcast m ∈
      ({ n with messages := msgs, run := some run', height := newHeight } : Node).history) :
    .broadcast m ∈ n.history := by
  obtain ⟨r, hr, hmem⟩ := List.mem_flatMap.mp hm
  rcases List.mem_append.mp hr with hr | hr
  · exact Node.mem_history (List.mem_append_left _ hr) hmem
  · cases Option.mem_toList.mp hr
    rw [hlog] at hmem
    rcases List.mem_append.mp hmem with hmem | hmem
    · exact Node.mem_history (List.mem_append_right _ (Option.mem_toList.mpr hrun)) hmem
    · exact absurd hmem hquiet

/-- A step from an open round into an open round is one of the round task, or leaves it alone and
broadcasts nothing. -/
theorem Node.Sheltered.roundTask_cases (h : n.Sheltered cfg trusted height b)
    (hcalm : ∀ run, n.run = some run → run.height = height → run.Calm cfg b n.knowledge)
    (hev : n.Undisturbed height b ev) (hopen : n.Open height) (hopen' : n'.Open height)
    (hrun : n.run = some run) (hheight : run.height = height) (hstep : n.step cfg ev = some n') :
    (∃ run', n'.run = some run' ∧ run'.roundTask = run.roundTask ∧
        ∀ m, .broadcast m ∈ n'.history → .broadcast m ∈ n.history) ∨
      ∃ env task s run', run.roundTask = some task ∧
        task.step cfg env run.view run.runState n.messages = some s ∧ n'.messages = s.messages ∧
        n'.run = some run' ∧ run'.roundTask = some s.task := by
  have hpatient := hev.patient run hrun hheight
  have hselect := (hopen.current hrun hheight).1
  cases nodeStep_of_step hstep with
  | receive | addPending => exact Or.inl ⟨run, hrun, rfl, fun _ hm => hm⟩
  | runHeight => exact absurd hselect (Node.over_of_runHeight hstep hrun)
  | @run ev old new msgs newHeight hrun' hrunstep =>
    cases hrun.symm.trans hrun'
    have hnew := hopen'.current rfl (hrunstep.same.1.trans hheight)
    cases hrunstep with
    | @round env task s htask hs => exact Or.inr ⟨env, task, s, _, htask, hs, rfl, rfl, rfl⟩
    | @futureProposal env task s htask hs =>
      refine Or.inl ⟨_, rfl, rfl, fun m hm => Node.broadcast_mem_of_quiet hrun rfl ?_ hm⟩
      rcases (FutureProposalTask.step_spec h.known.store.inv.round_le_of_storedProposal
        ((h.known.store.inv.run run hrun).proposalTask task htask) hs).2 with
        ⟨hnil, -⟩ | ⟨v, -, hchecks, -⟩
      · simp [hnil]
      · rw [hchecks]
        exact RoundTask.broadcast_notMem_blockChecks env v m
    | futureRcc htask hs =>
      refine Or.inl ⟨_, rfl, rfl, fun m hm => Node.broadcast_mem_of_quiet hrun rfl ?_ hm⟩
      simp [FutureRccTask.actions_of_step hs]
    | addOwnRoundChange hp | timeoutProposalMissing hp | timeoutTakeProposal hp
    | timeoutTakePrepares hp | broadcastRoundChange hp | finalProposalMissing hp
    | takeFinalProposal hp | prune hp | broadcastBlock hp =>
      rw [hselect] at hp
      cases hp
    | roundFinished => cases hnew.1
    | cancel => exact absurd rfl hpatient.2
    | timeoutCommit | timeoutEarly => exact absurd rfl hpatient.1
    | futureProposalReady _ htask => exact absurd htask ((hcalm run hrun hheight).monitors _).1
    | futureRccReady _ htask => exact absurd htask ((hcalm run hrun hheight).monitors _).2

/-- **One step** keeps what the node has sent. -/
theorem Node.Sheltered.keeps_own_step (h : n.Sheltered cfg trusted height b)
    (hcalm : ∀ run, n.run = some run → run.height = height → run.Calm cfg b n.knowledge)
    (hself : trusted cfg.address) (hev : n.Undisturbed height b ev)
    (hkeeps : n.Keeps cfg trusted height) (hopen : n.Open height) (hopen' : n'.Open height)
    (hslots : ∀ slot : Slot, slot.Kept trusted height → n.messages.occupied slot = true →
      n'.messages.occupied slot = true)
    (hstep : n.step cfg ev = some n') :
    ∀ m, .broadcast m ∈ n'.history → m.view = firstView height →
      n'.Adding m ∨ n'.messages.occupied (m.slot cfg.address) = true := by
  intro m hm hview
  have hinv := h.known.store.inv
  by_cases hold : .broadcast m ∈ n.history
  · rcases hkeeps.own m hold hview with ⟨run, task, hrun, htask, hadding⟩ | hocc
    · have hrunView := (hinv.run run hrun).view_of_adding htask hadding
      have hheight : run.height = height := congrArg View.height (hrunView.symm.trans hview)
      rcases h.roundTask_cases hcalm hev hopen hopen' hrun hheight hstep with
        ⟨run', hrun', hsame, -⟩ | ⟨env, task', s, run', htask', hs, hmsgs, -, -⟩
      · exact Or.inl ⟨run', task, hrun', hsame.trans htask, hadding⟩
      · right
        cases htask.symm.trans htask'
        rw [hmsgs]
        exact RoundTask.occupied_of_adding hadding hs
    · right
      have hfor := (h.speaks m hold (by rw [hview]; rfl)).2
      exact hslots _ (hfor.slot_kept hself hview) hocc
  · -- The message has just been broadcast.
    obtain ⟨run, hrun, hcases⟩ :=
      (hinv.broadcast_cases (nodeStep_of_step hstep) hm).resolve_left hold
    rcases hcases with ⟨task, htask, hout⟩ | ⟨rc, rfl, hphase⟩
    · have hrunView := (hinv.run run hrun).view_of_outgoing htask hout
      have hheight : run.height = height := congrArg View.height (hrunView.symm.trans hview)
      rcases h.roundTask_cases hcalm hev hopen hopen' hrun hheight hstep with
        ⟨-, -, -, hquiet⟩ | ⟨env, task', s, run', htask', hs, -, hrun', hnew⟩
      · exact absurd (hquiet m hm) hold
      · cases htask.symm.trans htask'
        exact Or.inl ⟨run', s.task, hrun', hnew, RoundTask.adding_of_outgoing hout hs⟩
    · -- A round change is broadcast outside the `select!` only, and the round is open.
      have hphaseInv := (hinv.run run hrun).phase
      rw [hphase] at hphaseInv
      obtain ⟨-, -, hrcView⟩ := hphaseInv
      have hheight : run.height = height := by
        have hrc : rc.view.height = height := congrArg View.height hview
        rw [hrcView] at hrc
        exact hrc
      rw [(hopen.current hrun hheight).1] at hphase
      cases hphase

/-- **One step of the node** keeps the messages of an open round. -/
theorem Node.Sheltered.keeps_step (h : n.Sheltered cfg trusted height b)
    (hcalm : ∀ run, n.run = some run → run.height = height → run.Calm cfg b n.knowledge)
    (hself : trusted cfg.address) (hev : n.Undisturbed height b ev)
    (hkeeps : n.Open height → n.Keeps cfg trusted height) (hopen' : n'.Open height)
    (hstep : n.step cfg ev = some n') : n'.Keeps cfg trusted height := by
  have hopen := Node.open_of_step hcalm hev hstep hopen'
  have hslots : ∀ slot : Slot, slot.Kept trusted height → n.messages.occupied slot = true →
      n'.messages.occupied slot = true :=
    fun _ hkept hocc => h.occupied_step hcalm hopen hopen' hstep hkept hocc
  exact ⟨h.keeps_peers_step (hkeeps hopen) hopen hslots hstep,
    h.keeps_own_step hcalm hself hev (hkeeps hopen) hopen hopen' hslots hstep⟩

end Tonic
