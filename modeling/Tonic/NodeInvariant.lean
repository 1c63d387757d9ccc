/-
# The invariant of a node

What holds of a node between any two events: where its stored messages come from, what
its actions rest on, that the logs of all its runs are sound, and what the task that
executes `run_height` knows at each of its await points.
-/
import Tonic.TaskInvariant
import Tonic.RunStep

namespace Tonic

open Transition

variable (cfg : Config)

/-! ## Runs -/

/-- What holds while the task of `run_height` waits in a phase: `view`, `runState`, `votes` and
`task` are those of the current round. -/
def RunPhase.Inv (K : Knowledge) (view : View) (runState : RunState) (votes : List Vote)
    (task : Option RoundTask) : RunPhase → Prop
  | .addOwnRoundChange rc =>
    task = none ∧ runState = .proposal ∧ votes = [] ∧ rc.view = view ∧
      Action.broadcast (.roundChange rc) ∈ K.history
  | .select => ∃ t, task = some t ∧ t.Inv cfg K view runState votes
  | .takeFinalProposal seals =>
    task = none ∧ runState = .commit ∧ ∃ d, VotedTwice votes d ∧
      Action.broadcast (.commit (cfg.ownCommit view d)) ∈ K.history ∧ Sealed cfg K view d seals
  | .broadcastBlock block =>
    task = none ∧ VoteSequence votes ∧ ∃ d p, OwnFinalized cfg K view.height block view d p
  | .timeoutTakeProposal => task = none ∧ runState = .commit ∧ ∃ d, VotedTwice votes d
  | .timeoutTakePrepares p =>
    task = none ∧ VoteSequence votes ∧ p.view = view ∧ ∃ a, Origin cfg K (.proposal p) a
  | .broadcastRoundChange rc =>
    task = none ∧ OwnRoundChange cfg K rc ∧
      rc.view = { height := view.height, round := view.round + 1 }
  | .prune _ | .returned _ | .panicked _ => task = none

/-- What holds of a run between two events. -/
structure Run.Inv (K : Knowledge) (run : Run) : Prop where
  log : LogOk run.height run.log
  round_le : run.round ≤ maxRound
  below : (∀ why, run.phase ≠ .panicked why) → Below run.log run.round
  latest : (∀ why, run.phase ≠ .panicked why) → ∀ rc, run.latestSelfRoundChange = some rc →
    OwnRoundChange cfg K rc ∧ Action.broadcast (.roundChange rc) ∈ K.history ∧
      rc.view.height = run.height ∧ rc.view.round ≤ run.round
  proposalTask : ∀ t, run.futureProposalTask = some t → t.Inv run.view
  rccTask : ∀ t, run.futureRccTask = some t → t.Inv run.view
  phase : run.phase.Inv cfg K run.view run.runState (votesAt run.log run.view) run.roundTask

/-! ## Nodes -/

namespace Node

/-- What a node has done, over all its runs. -/
def history (n : Node) : List Action := n.runs.flatMap Run.log

def knowledge (n : Node) : Knowledge := { history := n.history, received := n.received }

/-- What holds of a node between two events. -/
structure Inv (n : Node) : Prop where
  store : StoreInv cfg n.knowledge n.messages
  pending : ∀ m a, n.pending = some (m, a) →
    Origin cfg n.knowledge m a ∧ a ≠ cfg.address ∧ m.recoverSigner cfg.crypto = .ok a
  actions : ∀ a ∈ n.history, ActionOk cfg n.knowledge a
  past : ∀ run ∈ n.past, LogOk run.height run.log
  run : ∀ run, n.run = some run → run.Inv cfg n.knowledge

end Node

variable {cfg} {K K' : Knowledge} {run run' : Run} {n n' : Node}

theorem RunPhase.Inv.mono {view : View} {runState : RunState} {votes : List Vote}
    {task : Option RoundTask} {phase : RunPhase} (hK : K ≤ K')
    (h : phase.Inv cfg K view runState votes task) :
    phase.Inv cfg K' view runState votes task := by
  cases phase with
  | addOwnRoundChange rc => exact ⟨h.1, h.2.1, h.2.2.1, h.2.2.2.1, hK.1 h.2.2.2.2⟩
  | select =>
    obtain ⟨t, ht, hinv⟩ := h
    exact ⟨t, ht, hinv.mono hK⟩
  | takeFinalProposal seals =>
    obtain ⟨htask, hstate, d, hvotes, hsent, hsealed⟩ := h
    exact ⟨htask, hstate, d, hvotes, hK.1 hsent, hsealed.mono hK⟩
  | broadcastBlock block =>
    obtain ⟨htask, hvotes, d, p, hfin⟩ := h
    exact ⟨htask, hvotes, d, p, hfin.mono hK⟩
  | timeoutTakePrepares p =>
    obtain ⟨htask, hvotes, hview, a, horigin⟩ := h
    exact ⟨htask, hvotes, hview, a, horigin.mono hK⟩
  | broadcastRoundChange rc => exact ⟨h.1, h.2.1.mono hK, h.2.2⟩
  | prune | timeoutTakeProposal | returned | panicked => exact h

theorem Run.Inv.mono (hK : K ≤ K') (h : run.Inv cfg K) : run.Inv cfg K' where
  log := h.log
  round_le := h.round_le
  below := h.below
  latest hphase rc hrc := by
    obtain ⟨hown, hsent, hheight, hround⟩ := h.latest hphase rc hrc
    exact ⟨hown.mono hK, hK.1 hsent, hheight, hround⟩
  proposalTask := h.proposalTask
  rccTask := h.rccTask
  phase := h.phase.mono hK

/-- A round task runs only while `run` waits in `select!`. -/
theorem Run.Inv.select_of_task (h : run.Inv cfg K) {task : RoundTask}
    (htask : run.roundTask = some task) :
    run.phase = .select ∧ task.Inv cfg K run.view run.runState (votesAt run.log run.view) := by
  have hphase := h.phase
  cases hp : run.phase with
  | select =>
    rw [hp] at hphase
    obtain ⟨t, ht, hinv⟩ := hphase
    rw [htask] at ht
    cases ht
    exact ⟨rfl, hinv⟩
  | addOwnRoundChange | takeFinalProposal | broadcastBlock | timeoutTakePrepares
  | broadcastRoundChange | timeoutTakeProposal =>
    rw [hp, htask] at hphase
    cases hphase.1
  | prune | returned | panicked =>
    rw [hp, htask] at hphase
    cases hphase

/-- A log grown by the actions of a step of the round task. -/
theorem LogOk.append_step {height : UInt64} {log actions : List Action} {view : View}
    (h : LogOk height log) (hheight : view.height = height) (hbelow : Below log view.round)
    (hshape : actions = [] ∨ (∃ b, actions = [.verifiedBlock view.height b]) ∨
      ∃ m vote, actions = [.broadcast m] ∧ m.vote? = some vote ∧ m.view = view ∧
        VoteSequence (votesAt log view ++ [vote])) :
    LogOk height (log ++ actions) ∧ Below (log ++ actions) view.round := by
  rcases hshape with rfl | ⟨b, rfl⟩ | ⟨m, vote, rfl, hvote, hview, hvotes⟩
  · rw [List.append_nil]
    exact ⟨h, hbelow⟩
  · rw [hheight]
    refine ⟨h.concat_verifiedBlock b, hbelow.append fun a ha v hv => ?_⟩
    rw [List.mem_singleton.mp ha] at hv
    cases hv
  · subst hview
    refine ⟨h.concat_vote hvote hheight hbelow hvotes, hbelow.append fun a ha v hv => ?_⟩
    rw [List.mem_singleton.mp ha] at hv
    cases hv
    exact UInt8.le_refl _

/-! ## Entering a round -/

/-- Entering a round above all earlier ones, with no task of an earlier round left. -/
theorem Run.Inv.enterRound {round : UInt8} (hlog : LogOk run.height run.log)
    (hold : run.round ≤ maxRound) (hbelow : Below run.log round)
    (hentered : ∀ w, Action.entered w ∈ run.log → w.round < round)
    (hvotes : votesAt run.log { height := run.height, round } = [])
    (hlatest : ∀ rc, run.latestSelfRoundChange = some rc →
      OwnRoundChange cfg K rc ∧ Action.broadcast (.roundChange rc) ∈ K.history ∧
        rc.view.height = run.height ∧ rc.view.round ≤ round) :
    (run.enterRound cfg round).Inv cfg K := by
  unfold Run.enterRound
  split
  next hmax =>
    exact ⟨hlog, hold, fun h => absurd rfl (h _), fun h => absurd rfl (h _),
      fun t ht => (by cases ht), fun t ht => (by cases ht), rfl⟩
  next hmax =>
    have hround : round ≤ maxRound := UInt8.not_lt.mp hmax
    have hlog' := hlog.concat_entered (v := { height := run.height, round }) rfl hentered
    have hbelow' : Below (run.log ++ [.entered { height := run.height, round }]) round :=
      hbelow.append fun a ha v hv => by
        rw [List.mem_singleton.mp ha] at hv
        cases hv
        exact UInt8.le_refl _
    have hvotes' : votesAt (run.log ++ [.entered { height := run.height, round }])
        { height := run.height, round } = [] := by
      rw [votesAt_append, hvotes, votesAt_entered, List.append_nil]
    have hstart : RunPhase.select.Inv cfg K { height := run.height, round } .proposal
        (votesAt (run.log ++ [.entered { height := run.height, round }])
          { height := run.height, round }) (some .start) :=
      ⟨.start, rfl, rfl, hvotes'⟩
    -- The tasks of the round are spawned anew.
    have hmonitors : (∀ t, some FutureProposalTask.start = some t →
          t.Inv { height := run.height, round }) ∧
        (∀ t, some FutureRccTask.start = some t → t.Inv { height := run.height, round }) :=
      ⟨fun t ht => by cases ht; trivial, fun t ht => by cases ht; trivial⟩
    simp only
    split
    · exact ⟨hlog', hround, fun _ => hbelow', fun _ => hlatest, hmonitors.1, hmonitors.2, hstart⟩
    · split
      · exact ⟨hlog', hround, fun _ => hbelow', fun _ => hlatest, hmonitors.1, hmonitors.2,
          hstart⟩
      next rc hrc =>
        split
        next hview =>
          exact ⟨hlog', hround, fun _ => hbelow', fun _ => hlatest, hmonitors.1, hmonitors.2,
            rfl, rfl, hvotes', hview.1, (hlatest rc hrc).2.1⟩
        next =>
          exact ⟨hlog', hround, fun _ => hbelow', fun _ => hlatest, hmonitors.1, hmonitors.2,
            hstart⟩

/-- What entering a round adds to the log. -/
theorem Run.log_enterRound (cfg : Config) (run : Run) (round : UInt8) :
    ((run.enterRound cfg round).log = run.log ∨
      (round ≤ maxRound ∧ (run.enterRound cfg round).log =
        run.log ++ [.entered { height := run.height, round }])) := by
  unfold Run.enterRound
  split
  · exact Or.inl rfl
  next hmax =>
    refine Or.inr ⟨UInt8.not_lt.mp hmax, ?_⟩
    simp only
    split
    · rfl
    · split
      · rfl
      · split <;> rfl

/-- The round after a round within the limit is the next one. -/
theorem lt_add_one_of_le_maxRound {round : UInt8} (h : round ≤ maxRound) : round < round + 1 := by
  rw [maxRound] at h
  grind

/-! ## Histories -/

namespace Node

theorem history_of_run (hrun : n.run = some run) :
    n.history = n.past.flatMap Run.log ++ run.log := by
  simp [history, runs, hrun]

theorem mem_history {a : Action} (hrun : run ∈ n.runs) (ha : a ∈ run.log) : a ∈ n.history :=
  List.mem_flatMap.mpr ⟨run, hrun, ha⟩

theorem Inv.logOk (h : n.Inv cfg) (hrun : run ∈ n.runs) : LogOk run.height run.log := by
  rcases List.mem_append.mp hrun with hrun | hrun
  · exact h.past run hrun
  · exact (h.run run (Option.mem_toList.mp hrun)).log

/-- The current run of a node has gone on and taken some actions. -/
structure Advances (n n' : Node) (run run' : Run) (actions : List Action) : Prop where
  run_eq : n.run = some run
  run_eq' : n'.run = some run'
  past_eq : n'.past = n.past
  pending_eq : n'.pending = n.pending
  received_eq : n'.received = n.received
  log_eq : run'.log = run.log ++ actions

variable {actions : List Action}

theorem Advances.history (h : Advances n n' run run' actions) :
    n'.history = n.history ++ actions := by
  rw [history_of_run h.run_eq, history_of_run h.run_eq', h.past_eq, h.log_eq,
    List.append_assoc]

theorem Advances.knowledge_le (h : Advances n n' run run' actions) :
    n.knowledge ≤ n'.knowledge := by
  refine Knowledge.le_of_history ?_ h.received_eq
  change n.history ⊆ n'.history
  rw [h.history]
  exact List.subset_append_left _ _

theorem Advances.subset (h : Advances n n' run run' actions) : actions ⊆ n'.history := by
  rw [h.history]
  exact List.subset_append_right _ _

/-- A step of the current run keeps the invariant if its store, its actions and its run are
sound. -/
theorem Inv.advance (h : n.Inv cfg) (hadv : Advances n n' run run' actions)
    (hstore : StoreInv cfg n'.knowledge n'.messages)
    (hactions : ∀ a ∈ actions, ActionOk cfg n'.knowledge a)
    (hrun : run'.Inv cfg n'.knowledge) : n'.Inv cfg where
  store := hstore
  pending m a hm := by
    obtain ⟨horigin, hpeer⟩ := h.pending m a (hadv.pending_eq ▸ hm)
    exact ⟨horigin.mono hadv.knowledge_le, hpeer⟩
  actions a ha := by
    rw [hadv.history] at ha
    rcases List.mem_append.mp ha with ha | ha
    · exact (h.actions a ha).mono hadv.knowledge_le
    · exact hactions a ha
  past r hr := h.past r (hadv.past_eq ▸ hr)
  run r hr := by
    rw [hadv.run_eq'] at hr
    cases hr
    exact hrun

/-! ## Steps outside of runs -/

theorem Inv.init (height : UInt64) : (Node.init cfg height).Inv cfg where
  store := StoreInv.new _
  pending m a h := by cases h
  actions a ha := absurd ha List.not_mem_nil
  past r hr := absurd hr List.not_mem_nil
  run r hr := by cases hr

theorem Inv.receive {m : IBFTMessage} {pending : Option (IBFTMessage × Address)} (h : n.Inv cfg)
    (hpending : ∀ m' a, pending = some (m', a) →
      m' = m ∧ checkConsensusMessage cfg n.height m = .ok (some a)) :
    ({ n with pending, received := m :: n.received } : Node).Inv cfg := by
  have hK : n.knowledge ≤ { history := n.history, received := m :: n.received } :=
    ⟨fun _ ha => ha, List.subset_cons_self m n.received⟩
  refine ⟨h.store.mono hK, fun m' a hm => ?_, fun a ha => (h.actions a ha).mono hK, h.past,
    fun r hr => (h.run r hr).mono hK⟩
  obtain ⟨rfl, hcheck⟩ := hpending m' a hm
  obtain ⟨-, hround, hrec, hne, hadm⟩ := (checkConsensusMessage_eq_some_iff cfg).mp hcheck
  exact ⟨.peer List.mem_cons_self hne hrec hadm hround, hne, hrec⟩

theorem inv_start (cfg : Config) (K : Knowledge) (msgs : ConsensusMessages) (height : UInt64) :
    (Run.start cfg msgs height).Inv cfg K ∧
      ((Run.start cfg msgs height).log = [] ∨
        (Run.start cfg msgs height).log = [.entered { height, round := 0 }]) := by
  unfold Run.start
  simp only
  split
  · exact ⟨⟨LogOk.nil height, (by decide : (0 : UInt8) ≤ maxRound), fun h => absurd rfl (h _),
      fun h => absurd rfl (h _), fun t ht => (by cases ht), fun t ht => (by cases ht), rfl⟩,
      Or.inl rfl⟩
  · refine ⟨Run.Inv.enterRound (LogOk.nil height) (by decide : (0 : UInt8) ≤ maxRound)
      (fun a ha => absurd ha List.not_mem_nil) (fun w hw => absurd hw List.not_mem_nil) rfl
      (fun rc hrc => by cases hrc), ?_⟩
    exact (Run.log_enterRound cfg _ 0).imp id (·.2)

/-- A new run is the last one of the node; all older ones are past. -/
theorem Inv.runHeight {height : UInt64} (h : n.Inv cfg) :
    ({ n with run := some (Run.start cfg n.messages height), past := n.runs } : Node).Inv cfg := by
  obtain ⟨hinv, hlog⟩ := inv_start cfg n.knowledge n.messages height
  let n' : Node := { n with run := some (Run.start cfg n.messages height), past := n.runs }
  have hhistory : n'.history = n.history ++ (Run.start cfg n.messages height).log :=
    history_of_run (n := n') rfl
  have hK : n.knowledge ≤ n'.knowledge := by
    refine Knowledge.le_of_history ?_ rfl
    change n.history ⊆ n'.history
    rw [hhistory]
    exact List.subset_append_left _ _
  refine ⟨h.store.mono hK,
    fun m a hm => ⟨(h.pending m a hm).1.mono hK, (h.pending m a hm).2⟩, fun a ha => ?_,
    fun r hr => ?_, fun r hr => ?_⟩
  · change a ∈ n'.history at ha
    rw [hhistory] at ha
    rcases List.mem_append.mp ha with ha | ha
    · exact (h.actions a ha).mono hK
    · rcases hlog with hlog | hlog
      · rw [hlog] at ha
        cases ha
      · rw [hlog] at ha
        rw [List.mem_singleton.mp ha]
        exact (by decide : (0 : UInt8) ≤ maxRound)
  · rcases List.mem_append.mp hr with hr | hr
    · exact h.past r hr
    · exact (h.run r (Option.mem_toList.mp hr)).log
  · cases hr
    exact hinv.mono hK

/-- Stored proposals are within the round limit. -/
theorem Inv.round_le_of_storedProposal (h : n.Inv cfg) (v : View) (p : ProposalMessageSigned)
    (hp : n.messages.storedProposal v = some p) : v.round ≤ maxRound := by
  obtain ⟨rfl, a, horigin⟩ := h.store.proposal v p hp
  cases horigin with
  | peer _ _ _ _ hround => exact hround
  | own _ hsent =>
    have hown : OwnProposal cfg p := h.actions _ hsent
    exact hown.round_le

end Node

/-! ## Steps of the task of `run_height` -/

namespace Run

/-- The run waits elsewhere; its log and its tasks are as before. -/
theorem Inv.withPhase (h : run.Inv cfg K) (hp : ∀ why, run.phase ≠ .panicked why)
    {phase : RunPhase} {task : Option RoundTask}
    (hphase : phase.Inv cfg K run.view run.runState (votesAt run.log run.view) task) :
    Run.Inv cfg K { run with phase, roundTask := task } :=
  ⟨h.log, h.round_le, fun _ => h.below hp, fun _ => h.latest hp, h.proposalTask, h.rccTask,
    hphase⟩

/-- The run leaves `select!` and its tasks are aborted. -/
theorem Inv.leave (h : run.Inv cfg K) (hselect : run.phase = .select) {phase : RunPhase}
    (hphase : phase.Inv cfg K run.view run.runState (votesAt run.log run.view) none) :
    Run.Inv cfg K { run.abort with phase } := by
  have hp : ∀ why, run.phase ≠ .panicked why := by simp [hselect]
  exact ⟨h.log, h.round_le, fun _ => h.below hp, fun _ => h.latest hp, (fun _ ht => by cases ht),
    (fun _ ht => by cases ht), hphase⟩

/-- The run jumps to a later round. -/
theorem Inv.jump (h : run.Inv cfg K) (hselect : run.phase = .select) {round : UInt8}
    (hlt : run.round < round) : (run.abort.enterRound cfg round).Inv cfg K := by
  have hp : ∀ why, run.phase ≠ .panicked why := by simp [hselect]
  have hbelow := h.below hp
  refine Run.Inv.enterRound h.log h.round_le (hbelow.mono (UInt8.le_of_lt hlt)) (fun w hw => ?_)
    (hbelow.votesAt_eq_nil hlt) (fun rc hrc => ?_)
  · exact UInt8.lt_of_le_of_lt (hbelow _ hw w rfl) hlt
  · obtain ⟨hown, hsent, hheight, hround⟩ := h.latest hp rc hrc
    exact ⟨hown, hsent, hheight, UInt8.le_trans hround (UInt8.le_of_lt hlt)⟩

/-- The round change of a timeout that has no new certificate. -/
theorem Inv.ownRoundChange_next (h : run.Inv cfg K) (hp : ∀ why, run.phase ≠ .panicked why) :
    OwnRoundChange cfg K (run.nextRoundChange cfg) ∧
      (run.nextRoundChange cfg).view = { height := run.height, round := run.round + 1 } := by
  have hlt := lt_add_one_of_le_maxRound h.round_le
  have hne : run.round + 1 ≠ 0 := by
    intro heq
    rw [heq] at hlt
    exact absurd hlt (UInt8.not_lt.mpr (UInt8.zero_le))
  unfold nextRoundChange
  split
  next rc hrc =>
    obtain ⟨hown, -, hheight, hround⟩ := h.latest hp rc hrc
    have hview : (rc.updateAndResign cfg.crypto cfg.key (run.round + 1)).view =
        { height := run.height, round := run.round + 1 } := by
      rw [← hheight]
      rfl
    refine ⟨⟨by rw [hview]; exact hne, rfl, fun pp hpp => ?_⟩, hview⟩
    obtain ⟨p, entries, hfrom⟩ := hown.prepared pp hpp
    rw [hview, ← hheight]
    exact ⟨p, entries, { hfrom with
      round_lt := UInt8.lt_trans (UInt8.lt_of_lt_of_le hfrom.round_lt hround) hlt }⟩
  next => exact ⟨⟨hne, rfl, fun pp hpp => by cases hpp⟩, rfl⟩

/-- The round change of a timeout in the commit state, with the stored prepares. -/
theorem Inv.ownRoundChange_prepared (h : run.Inv cfg K) {msgs : ConsensusMessages}
    (hstore : StoreInv cfg K msgs) {p : ProposalMessageSigned} (hview : p.view = run.view)
    (horigin : ∃ a, Origin cfg K (.proposal p) a) {env : Env}
    (hlen : cfg.validatorManager.quorum run.height - 1 ≤
      (msgs.takeValidPrepareMessages env run.view
        (fun m => m.proposedBlockDigest = p.proposedBlockDigest)).1.length) :
    OwnRoundChange cfg K (run.preparedRoundChange cfg p
      (msgs.takeValidPrepareMessages env run.view
        (fun m => m.proposedBlockDigest = p.proposedBlockDigest)).1) := by
  have hlt := lt_add_one_of_le_maxRound h.round_le
  obtain ⟨entries, hentries, heq⟩ := ConsensusMessages.takeValidPrepareMessages_fst
    msgs env run.view (fun m => m.proposedBlockDigest = p.proposedBlockDigest)
  refine ⟨?_, rfl, fun pp hpp => ?_⟩
  · intro hzero
    have hzero' : run.round + 1 = 0 := hzero
    rw [hzero'] at hlt
    exact absurd hlt (UInt8.not_lt.mpr (UInt8.zero_le))
  · cases hpp
    have hcollected := hstore.collected_prepares hentries
    refine ⟨p, entries, ?_, ?_, ?_, horigin, ⟨hcollected.senders, ?_⟩, ?_⟩
    · rw [heq]
    · rw [hview]
      rfl
    · change p.view.round < run.round + 1
      rw [hview]
      exact hlt
    · intro e he
      obtain ⟨horigin', hv, hd⟩ := hcollected.origin e he
      exact ⟨horigin', hv.trans hview.symm, of_decide_eq_true hd⟩
    · rw [heq, List.length_map] at hlen
      exact hlen

end Run

/-! ## Steps of the current run -/

namespace Node

variable {msgs : ConsensusMessages} {height : UInt64}

theorem Inv.round {env : Env} {task : RoundTask} {s : TaskStep RoundTask} (h : n.Inv cfg)
    (hrun : n.run = some run) (htask : run.roundTask = some task)
    (hs : task.step cfg env run.view run.runState n.messages = some s) :
    ({ n with
      messages := s.messages
      run := some { run with
        roundTask := some s.task, runState := s.runState, log := run.log ++ s.actions }
      height } : Node).Inv cfg := by
  have hinv := h.run run hrun
  obtain ⟨hselect, htaskinv⟩ := hinv.select_of_task htask
  have hp : ∀ why, run.phase ≠ .panicked why := by simp [hselect]
  let run' : Run :=
    { run with roundTask := some s.task, runState := s.runState, log := run.log ++ s.actions }
  let n' : Node := { n with messages := s.messages, run := some run', height }
  have hadv : Advances n n' run run' s.actions := ⟨hrun, rfl, rfl, rfl, rfl, rfl⟩
  have hok := RoundTask.stepOk_step h.store h.actions hinv.round_le htaskinv hs hadv.knowledge_le
    hadv.subset
  obtain ⟨hlog, hbelow⟩ := hinv.log.append_step rfl (hinv.below hp) hok.shape
  refine h.advance hadv hok.store hok.actions ⟨hlog, hinv.round_le, fun _ => hbelow,
    fun _ => (hinv.mono hadv.knowledge_le).latest hp, hinv.proposalTask, hinv.rccTask, ?_⟩
  change run.phase.Inv cfg n'.knowledge run.view s.runState
    (votesAt (run.log ++ s.actions) run.view) (some s.task)
  rw [hselect, votesAt_append]
  exact ⟨s.task, rfl, hok.task⟩

/-- A monitor's step leaves the run as it is but for the monitor and verified blocks in its log. -/
theorem Inv.monitor {actions : List Action} {proposalTask : Option FutureProposalTask}
    {rccTask : Option FutureRccTask} (h : n.Inv cfg) (hrun : n.run = some run)
    (hshape : actions = [] ∨ ∃ b, actions = [.verifiedBlock run.height b])
    (hstore : ∀ K', n.knowledge ≤ K' → actions ⊆ K'.history → StoreInv cfg K' msgs)
    (hproposal : ∀ t, proposalTask = some t → t.Inv run.view)
    (hrcc : ∀ t, rccTask = some t → t.Inv run.view) :
    ({ n with
      messages := msgs
      run := some { run with
        futureProposalTask := proposalTask, futureRccTask := rccTask, log := run.log ++ actions }
      height } : Node).Inv cfg := by
  let run' : Run := { run with
    futureProposalTask := proposalTask, futureRccTask := rccTask, log := run.log ++ actions }
  let n' : Node := { n with messages := msgs, run := some run', height }
  have hadv : Advances n n' run run' actions := ⟨hrun, rfl, rfl, rfl, rfl, rfl⟩
  have hinv := (h.run run hrun).mono hadv.knowledge_le
  -- A verified block is no vote.
  have hvotes : votesAt (run.log ++ actions) run.view = votesAt run.log run.view := by
    rw [votesAt_append]
    rcases hshape with rfl | ⟨b, rfl⟩ <;> exact List.append_nil _
  refine h.advance hadv (hstore _ hadv.knowledge_le hadv.subset) (fun a ha => ?_)
    ⟨?_, hinv.round_le, fun hp => (hinv.below hp).append fun a ha v hv => ?_, hinv.latest,
      hproposal, hrcc, ?_⟩
  · rcases hshape with rfl | ⟨b, rfl⟩
    · cases ha
    · rw [List.mem_singleton.mp ha]
      trivial
  · change LogOk run.height (run.log ++ actions)
    rcases hshape with rfl | ⟨b, rfl⟩
    · rw [List.append_nil]
      exact hinv.log
    · exact hinv.log.concat_verifiedBlock b
  · rcases hshape with rfl | ⟨b, rfl⟩
    · cases ha
    · rw [List.mem_singleton.mp ha] at hv
      cases hv
  · change run.phase.Inv cfg n'.knowledge run.view run.runState
      (votesAt (run.log ++ actions) run.view) run.roundTask
    rw [hvotes]
    exact hinv.phase

theorem Inv.futureProposal {env : Env} {task : FutureProposalTask}
    {s : TaskStep FutureProposalTask} (h : n.Inv cfg) (hrun : n.run = some run)
    (htask : run.futureProposalTask = some task)
    (hs : task.step cfg env run.view run.runState n.messages = some s) :
    ({ n with
      messages := s.messages
      run := some { run with futureProposalTask := some s.task, log := run.log ++ s.actions }
      height } : Node).Inv cfg := by
  have hinv := h.run run hrun
  obtain ⟨htaskinv, hcases⟩ := FutureProposalTask.step_spec h.round_le_of_storedProposal
    (hinv.proposalTask task htask) hs
  refine h.monitor hrun ?_ (fun K' hK hsub => ?_) (fun t ht => by cases ht; exact htaskinv)
    hinv.rccTask
  · rcases hcases with ⟨hnil, -⟩ | ⟨v, hheight, hchecks, -⟩
    · exact Or.inl hnil
    · rw [hchecks]
      have hshape := RoundTask.blockChecks_shape cfg n.messages env v
      rw [hheight] at hshape
      exact hshape
  · rcases hcases with ⟨-, hmsgs⟩ | ⟨v, -, hchecks, hmsgs⟩
    · rw [hmsgs]
      exact h.store.mono hK
    · rw [hmsgs]
      exact h.store.getValidProposalDigest env v hK (hchecks ▸ hsub)

theorem Inv.futureRcc {task : FutureRccTask} {s : TaskStep FutureRccTask} (h : n.Inv cfg)
    (hrun : n.run = some run) (htask : run.futureRccTask = some task)
    (hs : task.step cfg run.view run.runState n.messages = some s) :
    ({ n with
      messages := s.messages
      run := some { run with futureRccTask := some s.task, log := run.log ++ s.actions }
      height } : Node).Inv cfg := by
  have hinv := h.run run hrun
  obtain ⟨htaskinv, hnil, hmsgs⟩ := FutureRccTask.step_spec (hinv.rccTask task htask) hs
  refine h.monitor hrun (Or.inl hnil) (fun K' hK _ => ?_) hinv.proposalTask
    (fun t ht => by cases ht; exact htaskinv)
  rcases hmsgs with hmsgs | ⟨v, hmsgs⟩
  · rw [hmsgs]
    exact h.store.mono hK
  · rw [hmsgs]
    exact (h.store.mono hK).getValidRoundChangeCount v _

/-- A step of the current run that takes no action and leaves the store alone or takes messages
from it. -/
theorem Inv.quiet (h : n.Inv cfg) (hrun : n.run = some run) (hlog : run'.log = run.log)
    (hstore : StoreInv cfg n.knowledge msgs) (hinv : run'.Inv cfg n.knowledge) :
    ({ n with messages := msgs, run := some run', height } : Node).Inv cfg := by
  have hadv : Advances n { n with messages := msgs, run := some run', height } run run' [] :=
    ⟨hrun, rfl, rfl, rfl, rfl, by rw [hlog, List.append_nil]⟩
  exact h.advance hadv (hstore.mono hadv.knowledge_le) (fun a ha => absurd ha List.not_mem_nil)
    (hinv.mono hadv.knowledge_le)

/-- The run returns its block; whatever comes next has nothing left to know. -/
theorem Inv.broadcastBlock {block : FinalizedBlock} {phase : RunPhase} (h : n.Inv cfg)
    (hrun : n.run = some run) (hp : run.phase = .broadcastBlock block)
    (hnext : phase = .prune block ∨ ∃ why, phase = .panicked why) :
    ({ n with
      run := some { run with log := run.log ++ [.finalized run.height block], phase }
      height } : Node).Inv cfg := by
  have hinv := h.run run hrun
  have hphase := hinv.phase
  rw [hp] at hphase
  obtain ⟨htask, -, d, p, hfin⟩ := hphase
  let run' : Run := { run with log := run.log ++ [.finalized run.height block], phase }
  let n' : Node := { n with run := some run', height }
  have hadv : Advances n n' run run' [.finalized run.height block] :=
    ⟨hrun, rfl, rfl, rfl, rfl, rfl⟩
  have hK := hadv.knowledge_le
  refine h.advance hadv (h.store.mono hK) (fun a ha => ?_)
    ⟨hinv.log.concat_finalized block, hinv.round_le, fun _ => ?_,
      fun _ => (hinv.mono hK).latest (by simp [hp]), hinv.proposalTask, hinv.rccTask, ?_⟩
  · rw [List.mem_singleton.mp ha]
    exact ⟨run.view, d, p, hfin.mono hK⟩
  · refine (hinv.below (by simp [hp])).append fun a ha v hv => ?_
    rw [List.mem_singleton.mp ha] at hv
    cases hv
  · rcases hnext with rfl | ⟨why, rfl⟩ <;> exact htask

/-- The run broadcasts its round change and goes on to the next round. -/
theorem Inv.broadcastRoundChange {rc : RoundChangeMessageSigned} (h : n.Inv cfg)
    (hrun : n.run = some run) (hp : run.phase = .broadcastRoundChange rc) :
    ({ n with
      run := some (Run.enterRound cfg
        { run with
          latestSelfRoundChange := some rc
          log := run.log ++ [.broadcast (.roundChange rc)] } (run.round + 1))
      height } : Node).Inv cfg := by
  have hinv := h.run run hrun
  have hphase := hinv.phase
  rw [hp] at hphase
  obtain ⟨-, hown, hview⟩ := hphase
  have hlt := lt_add_one_of_le_maxRound hinv.round_le
  have hbelow := hinv.below (by simp [hp])
  have hround : rc.view.round = run.round + 1 := by rw [hview]; rfl
  have hheight : rc.view.height = run.height := by rw [hview]; rfl
  let run₁ : Run := { run with
    latestSelfRoundChange := some rc
    log := run.log ++ [.broadcast (.roundChange rc)] }
  have hlog₁ : LogOk run.height run₁.log :=
    hinv.log.concat_roundChange hheight hbelow (by rw [hround]; exact hlt)
  have hbelow₁ : Below run₁.log (run.round + 1) :=
    (hbelow.mono (UInt8.le_of_lt hlt)).append fun a ha v hv => by
      rw [List.mem_singleton.mp ha] at hv
      cases hv
      change rc.view.round ≤ _
      rw [hround]
      exact UInt8.le_refl _
  -- No vote of the next round has been logged so far.
  have hvotes₁ : votesAt run₁.log { height := run.height, round := run.round + 1 } = [] := by
    change votesAt (run.log ++ _) _ = []
    rw [votesAt_append, hbelow.votesAt_eq_nil hlt, votesAt_broadcast]
    split <;> rfl
  -- After the round change the log has the next round, unless this was the last one.
  obtain ⟨actions, hactions, hlog⟩ : ∃ actions,
      (∀ K' : Knowledge, ∀ a ∈ actions, ActionOk cfg K' a) ∧
      (run₁.enterRound cfg (run.round + 1)).log =
        run.log ++ (.broadcast (.roundChange rc) :: actions) := by
    rcases Run.log_enterRound cfg run₁ (run.round + 1) with hsame | ⟨hle, hnew⟩
    · exact ⟨[], fun _ a ha => absurd ha List.not_mem_nil, hsame⟩
    · refine ⟨[.entered { height := run.height, round := run.round + 1 }], fun _ a ha => ?_, ?_⟩
      · rw [List.mem_singleton.mp ha]
        exact hle
      · rw [hnew]
        exact List.append_assoc _ _ _
  have hadv : Advances n { n with run := some (run₁.enterRound cfg (run.round + 1)), height } run
      (run₁.enterRound cfg (run.round + 1)) (.broadcast (.roundChange rc) :: actions) :=
    ⟨hrun, rfl, rfl, rfl, rfl, hlog⟩
  have hown' := hown.mono hadv.knowledge_le
  refine h.advance hadv (h.store.mono hadv.knowledge_le) (fun a ha => ?_) ?_
  · rcases List.mem_cons.mp ha with rfl | ha
    · exact hown'
    · exact hactions _ a ha
  · refine Run.Inv.enterRound hlog₁ hinv.round_le hbelow₁ (fun w hw => ?_) hvotes₁
      (fun rc' hrc => ?_)
    · rcases List.mem_append.mp hw with hw | hw
      · exact UInt8.lt_of_le_of_lt (hbelow _ hw w rfl) hlt
      · cases List.mem_singleton.mp hw
    · cases hrc
      exact ⟨hown', hadv.subset List.mem_cons_self, hheight, by rw [hround]; exact UInt8.le_refl _⟩

/-- Jumping to a later round keeps the invariant. -/
theorem Inv.jump (h : n.Inv cfg) (hrun : n.run = some run) (hselect : run.phase = .select)
    {round : UInt8} (hlt : run.round < round) :
    ({ n with run := some (run.abort.enterRound cfg round), height } : Node).Inv cfg := by
  have hinv := h.run run hrun
  obtain ⟨actions, hactions, hlog⟩ : ∃ actions,
      (∀ (K' : Knowledge), ∀ a ∈ actions, ActionOk cfg K' a) ∧
      (run.abort.enterRound cfg round).log = run.log ++ actions := by
    rcases Run.log_enterRound cfg run.abort round with hsame | ⟨hle, hnew⟩
    · exact ⟨[], fun _ a ha => absurd ha List.not_mem_nil, by rw [hsame, List.append_nil]; rfl⟩
    · refine ⟨_, fun _ a ha => ?_, hnew⟩
      rw [List.mem_singleton.mp ha]
      exact hle
  have hadv : Advances n { n with run := some (run.abort.enterRound cfg round), height } run
      (run.abort.enterRound cfg round) actions :=
    ⟨hrun, rfl, rfl, rfl, rfl, hlog⟩
  exact h.advance hadv (h.store.mono hadv.knowledge_le) (hactions _)
    ((hinv.mono hadv.knowledge_le).jump hselect hlt)

/-- Every step of the current run keeps the invariant. -/
theorem Inv.runStep {ev : Event} (h : n.Inv cfg) (hrun : n.run = some run)
    (hstep : RunStep cfg n.messages run ev msgs run') :
    ({ n with messages := msgs, run := some run', height } : Node).Inv cfg := by
  have hinv := h.run run hrun
  have hphase := hinv.phase
  cases hstep with
  | round htask hs => exact h.round hrun htask hs
  | futureProposal htask hs => exact h.futureProposal hrun htask hs
  | futureRcc htask hs => exact h.futureRcc hrun htask hs
  | addOwnRoundChange hp =>
    rw [hp] at hphase
    obtain ⟨-, hstate, hvotes, -, hsent⟩ := hphase
    exact h.quiet hrun rfl (h.store.addRoundChangeMessage (.own rfl hsent))
      (hinv.withPhase (by simp [hp]) ⟨.start, rfl, hstate, hvotes⟩)
  | finalProposalMissing hp hstored =>
    rw [hp] at hphase
    exact h.quiet hrun rfl (h.store.takeProposalMessage run.view)
      (hinv.withPhase (by simp [hp]) hphase.1)
  | takeFinalProposal hp hstored =>
    rw [hp] at hphase
    obtain ⟨htask, -, d, hvotes, hsent, hsealed⟩ := hphase
    obtain ⟨hview, horigin⟩ := h.store.proposal _ _ hstored
    exact h.quiet hrun rfl (h.store.takeProposalMessage run.view)
      (hinv.withPhase (by simp [hp]) ⟨htask, hvotes.voteSequence, d, _,
        rfl, hview, horigin, rfl, rfl, hsent, hsealed⟩)
  | broadcastBlock hp hnext => exact h.broadcastBlock hrun hp hnext
  | prune hp =>
    rw [hp] at hphase
    exact h.quiet hrun rfl (h.store.prune _) (hinv.withPhase (by simp [hp]) hphase)
  | timeoutProposalMissing hp hstored =>
    rw [hp] at hphase
    exact h.quiet hrun rfl (h.store.takeProposalMessage run.view)
      (hinv.withPhase (by simp [hp]) hphase.1)
  | timeoutTakeProposal hp hstored =>
    rw [hp] at hphase
    obtain ⟨htask, -, d, hvotes⟩ := hphase
    obtain ⟨hview, horigin⟩ := h.store.proposal _ _ hstored
    exact h.quiet hrun rfl (h.store.takeProposalMessage run.view)
      (hinv.withPhase (by simp [hp]) ⟨htask, hvotes.voteSequence, hview, horigin⟩)
  | timeoutTakePrepares hp hnext =>
    rw [hp] at hphase
    obtain ⟨htask, -, hview, horigin⟩ := hphase
    refine h.quiet hrun rfl (h.store.takeValidPrepareMessages _ run.view _)
      (hinv.withPhase (by simp [hp]) ?_)
    rcases hnext with ⟨why, rfl⟩ | ⟨hlen, rfl⟩
    · exact htask
    · exact ⟨htask, hinv.ownRoundChange_prepared h.store hview horigin hlen, rfl⟩
  | broadcastRoundChange hp => exact h.broadcastRoundChange hrun hp
  | cancel hp => exact h.quiet hrun rfl h.store (hinv.leave hp rfl)
  | roundFinished hp htask =>
    obtain ⟨-, hstate, d, hvotes, hsent, hsealed⟩ := hinv.select_of_task htask
    exact h.quiet hrun rfl h.store (hinv.leave hp ⟨rfl, hstate, d, hvotes, hsent, hsealed⟩)
  | futureProposalReady hp htask => exact h.jump hrun hp (hinv.proposalTask _ htask).1
  | futureRccReady hp htask => exact h.jump hrun hp (hinv.rccTask _ htask).1
  | timeoutCommit hp hstate =>
    rw [hp, hstate] at hphase
    obtain ⟨task, -, htaskinv⟩ := hphase
    exact h.quiet hrun rfl h.store
      (hinv.leave hp ⟨rfl, hstate, htaskinv.votedTwice_of_commit⟩)
  | timeoutEarly hp hstate =>
    obtain ⟨hown, hview⟩ := hinv.ownRoundChange_next (by simp [hp])
    exact h.quiet hrun rfl h.store (hinv.leave hp ⟨rfl, hown, hview⟩)

/-! ## Every run of a node -/

/-- **The invariant step**: every event keeps the invariant. -/
theorem Inv.step {ev : Event} (h : n.Inv cfg) (hstep : n.step cfg ev = some n') : n'.Inv cfg := by
  cases nodeStep_of_step hstep with
  | receive hpending => exact h.receive hpending
  | addPending hpending =>
    exact ⟨h.store.addMessage (h.pending _ _ hpending).1, (fun _ _ hp => by cases hp), h.actions,
      h.past, h.run⟩
  | runHeight hpast =>
    subst hpast
    exact h.runHeight
  | run hrun hrunstep => exact h.runStep hrun hrunstep

/-- **The invariant of every reachable node.** -/
theorem inv_of_reachable {height : UInt64}
    (h : Reachable (Node.step cfg) (Node.init cfg height) n) : n.Inv cfg :=
  h.invariant (fun _ _ _ hinv hstep => hinv.step hstep) (Inv.init height)

end Node

end Tonic
