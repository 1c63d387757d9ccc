/-
# Receivers that fall behind

Every wait loop unwraps what `recv` of its notification channel returns, and `recv`
returns `Lagged` once more than `channelSize` notifications were sent since the last
read.  The channels carry the notifications of all heights and rounds, so a task that
is not polled for long enough panics.  A step panics there exactly where it polls a
receiver that has fallen behind, and a run in which no such step happens never does.
-/
import Tonic.CleanRun
import Tonic.ModelCrypto

namespace Tonic

open Transition

/-! ## Waiting and lagging -/

namespace RoundTask

/-- The task has panicked at a receive. -/
def recvPanicked : RoundTask → Bool
  | .panicked why => recvMessages.contains why
  | _ => false

end RoundTask

namespace FutureRccTask

def waiting (msgs : ConsensusMessages) : FutureRccTask → Option (Channel × Receiver)
  | .recv rx _ => some (msgs.roundChangeTx, rx)
  | _ => none

def recvPanicked : FutureRccTask → Bool
  | .panicked why => recvMessages.contains why
  | _ => false

end FutureRccTask

namespace FutureProposalTask

def waiting (msgs : ConsensusMessages) : FutureProposalTask → Option (Channel × Receiver)
  | .recv rx => some (msgs.proposalTx, rx)
  | _ => none

def recvPanicked : FutureProposalTask → Bool
  | .panicked why => recvMessages.contains why
  | _ => false

end FutureProposalTask

/-- A waiting task whose receiver lags. -/
def Lagging (waiting : Option (Channel × Receiver)) : Prop :=
  ∃ ch rx, waiting = some (ch, rx) ∧ ch.Lags rx

theorem lagging_some_iff {ch : Channel} {rx : Receiver} :
    Lagging (some (ch, rx)) ↔ ch.Lags rx := by
  constructor
  · rintro ⟨ch', rx', heq, hlags⟩
    cases heq
    exact hlags
  · exact fun h => ⟨ch, rx, rfl, h⟩

/-- A task that does not panic at a receive, since it waits for nothing. -/
theorem iff_lagging_none {b : Bool} (hb : b = false) : b = true ↔ Lagging none := by
  rw [hb]
  constructor
  · intro h
    cases h
  · rintro ⟨ch, rx, h, -⟩
    cases h

/-! ## One step -/

section Step

variable {cfg : Config} {view : View} {runState : RunState} {msgs : ConsensusMessages} {env : Env}

namespace RoundTask

theorem recvPanicked_propose (rawBlock : RawBlock) (rcc : Option RoundChangeCertificate) :
    (propose cfg view rawBlock rcc).recvPanicked = false := by
  unfold propose
  split
  · decide
  · rfl

theorem recvPanicked_buildAndPropose (rcc : Option RoundChangeCertificate) :
    (buildAndPropose cfg env view rcc).recvPanicked = false := by
  unfold buildAndPropose
  split
  · rfl
  · exact recvPanicked_propose _ _

theorem recvPanicked_pollStart : (pollStart cfg env view msgs).recvPanicked = false := by
  unfold pollStart
  split
  · split
    · exact recvPanicked_buildAndPropose _
    · rfl
  · rfl

theorem recvPanicked_proposeFromRoundChanges
    (roundChanges : Option (List RoundChangeMessageSigned)) :
    (proposeFromRoundChanges cfg env view roundChanges).recvPanicked = false := by
  unfold proposeFromRoundChanges
  split
  · decide
  · split
    next why hwhy =>
      have htext : why = "Impossible to not have block while having prepared proposed" := by
        unfold composeRoundChangeCertificate at hwhy
        simp only at hwhy
        split at hwhy
        · split at hwhy
          · cases hwhy
          · exact (Except.error.inj hwhy).symm
        · cases hwhy
      rw [htext]
      decide
    · exact recvPanicked_propose _ _
    · exact recvPanicked_buildAndPropose _

theorem recvPanicked_prepareDigest {missing : RoundTask} (hmissing : missing.recvPanicked = false)
    (digest : Option (Except IBFTError Digest)) :
    (prepareDigest cfg view missing digest).recvPanicked = false := by
  unfold prepareDigest
  split
  · exact hmissing
  · rfl
  · rfl

theorem recvPanicked_sealsTaken {digest : Digest} {rx : Receiver}
    (taken : Option CommitSeals × ℕ) :
    (sealsTaken cfg view digest rx taken).recvPanicked = false := by
  unfold sealsTaken
  split
  split
  · rfl
  · split
    · decide
    · rfl

theorem recvPanicked_notified {task : RoundTask} (h : task.recvPanicked = false) (v : View) :
    (task.notified cfg view v).recvPanicked = false := by
  cases task with
  | recvRoundChange | recvPrepare | recvCommit =>
    simp only [notified]
    split
    · split <;> rfl
    · rfl
  | recvProposal =>
    simp only [notified]
    split <;> rfl
  | _ => exact h

/-- **A step of the round task panics at a receive exactly where it polls a lagging receiver.** -/
theorem recvPanicked_step_iff {task : RoundTask} {s : TaskStep RoundTask}
    (hs : task.step cfg env view runState msgs = some s) :
    s.task.recvPanicked = true ↔ Lagging (task.waiting msgs) := by
  cases task with
  | start =>
    cases hs
    exact iff_lagging_none recvPanicked_pollStart
  | takeRoundChanges rx =>
    simp only [step] at hs
    cases hs
    refine iff_lagging_none ?_
    show (if _ then _ else _ : RoundTask).recvPanicked = false
    split
    · rfl
    · exact recvPanicked_proposeFromRoundChanges _
  | getProposal rx =>
    simp only [step] at hs
    cases hs
    exact iff_lagging_none (recvPanicked_prepareDigest rfl _)
  | getProposalAgain =>
    simp only [step] at hs
    cases hs
    exact iff_lagging_none (recvPanicked_prepareDigest (by decide) _)
  | countPrepares d rx =>
    simp only [step] at hs
    cases hs
    refine iff_lagging_none ?_
    show (prepareCounted cfg view d rx _).recvPanicked = false
    unfold prepareCounted
    split <;> rfl
  | takeSeals d rx =>
    simp only [step] at hs
    cases hs
    exact iff_lagging_none (recvPanicked_sealsTaken _)
  | recvRoundChange | recvProposal | recvPrepare | recvCommit =>
    -- These steps poll a receiver; no other step panics at one.
    rw [waiting, lagging_some_iff, ← Channel.recv_eq_lagged_iff]
    rcases step_of_waiting hs rfl with ⟨hlagged, why, hmem, rfl⟩ | ⟨v, hnotified, rfl⟩
    · exact ⟨fun _ => hlagged, fun _ => List.contains_iff_mem.mpr hmem⟩
    · refine ⟨fun hpanicked => ?_, fun hlagged => by cases hnotified.symm.trans hlagged⟩
      simp only [goto] at hpanicked
      rw [recvPanicked_notified (by rfl)] at hpanicked
      cases hpanicked
  | broadcastProposal | broadcastPrepare | broadcastCommit | addProposal | addPrepare
  | addCommit =>
    cases hs
    exact iff_lagging_none rfl
  | finished | failed | panicked => cases hs

end RoundTask

namespace FutureRccTask

theorem recvPanicked_scanBelow {rx : Receiver} {counts : List ℕ} (k : ℕ) :
    (scanBelow cfg view rx counts k).recvPanicked = false := by
  unfold scanBelow
  simp only
  split <;> rfl

theorem recvPanicked_step_iff {task : FutureRccTask} {s : TaskStep FutureRccTask}
    (hs : task.step cfg view runState msgs = some s) :
    s.task.recvPanicked = true ↔ Lagging (task.waiting msgs) := by
  cases task with
  | start => cases hs; exact iff_lagging_none rfl
  | countByRound rx =>
    simp only [step] at hs
    refine iff_lagging_none ?_
    split at hs
    · cases hs
      simp only [goto, recvPanicked]
      decide
    · cases hs; exact recvPanicked_scanBelow _
  | scan rx counts idx =>
    simp only [step] at hs
    cases hs
    refine iff_lagging_none ?_
    simp only [goto]
    split
    · rfl
    · exact recvPanicked_scanBelow _
  | recv rx counts =>
    rw [waiting, lagging_some_iff, ← Channel.recv_eq_lagged_iff]
    simp only [step] at hs
    cases hrecv : msgs.roundChangeTx.recv rx with
    | pending => rw [hrecv] at hs; cases hs
    | lagged =>
      rw [hrecv] at hs
      cases hs
      refine ⟨fun _ => rfl, fun _ => ?_⟩
      simp only [goto, recvPanicked]
      decide
    | notified v =>
      rw [hrecv] at hs
      simp only [reduceCtorEq, iff_false]
      simp only at hs
      split at hs
      · split at hs
        · cases hs
          simp only [goto, recvPanicked]
          decide
        · cases hs
          simp only [goto]
          split <;> simp [recvPanicked]
      · cases hs; simp [goto, recvPanicked]
  | recount rx counts v =>
    simp only [step] at hs
    cases hs
    refine iff_lagging_none ?_
    simp only [goto]
    split <;> rfl
  | sent round => cases hs
  | panicked why => cases hs

end FutureRccTask

namespace FutureProposalTask

theorem recvPanicked_scanBelow {rx : Receiver} {present : List Bool} (k : ℕ) :
    (scanBelow view rx present k).recvPanicked = false := by
  unfold scanBelow
  split <;> rfl

theorem recvPanicked_verifyFuture {newView : View} {next : FutureProposalTask}
    (hnext : next.recvPanicked = false) :
    (verifyFuture cfg env runState msgs newView next).task.recvPanicked = false := by
  unfold verifyFuture
  simp only
  split
  · rfl
  · exact hnext

theorem recvPanicked_step_iff {task : FutureProposalTask} {s : TaskStep FutureProposalTask}
    (hs : task.step cfg env view runState msgs = some s) :
    s.task.recvPanicked = true ↔ Lagging (task.waiting msgs) := by
  cases task with
  | start => cases hs; exact iff_lagging_none rfl
  | hasByRound rx =>
    simp only [step] at hs
    refine iff_lagging_none ?_
    split at hs
    · cases hs
      simp only [goto, recvPanicked]
      decide
    · cases hs; exact recvPanicked_scanBelow _
  | scan rx present idx =>
    cases hs
    exact iff_lagging_none (recvPanicked_verifyFuture (recvPanicked_scanBelow _))
  | recv rx =>
    rw [waiting, lagging_some_iff, ← Channel.recv_eq_lagged_iff]
    simp only [step] at hs
    cases hrecv : msgs.proposalTx.recv rx with
    | pending => rw [hrecv] at hs; cases hs
    | lagged =>
      rw [hrecv] at hs
      cases hs
      refine ⟨fun _ => rfl, fun _ => ?_⟩
      simp only [goto, recvPanicked]
      decide
    | notified v =>
      rw [hrecv] at hs
      cases hs
      simp only [goto, reduceCtorEq, iff_false]
      split <;> simp [recvPanicked]
  | verify rx v =>
    cases hs
    exact iff_lagging_none (recvPanicked_verifyFuture rfl)
  | sent round => cases hs
  | panicked why => cases hs

end FutureProposalTask

end Step

/-! ## Whole runs -/

/-- No task of the run has panicked at a receive. -/
structure Run.ReceivesSurvive (run : Run) : Prop where
  round : ∀ task, run.roundTask = some task → task.recvPanicked = false
  futureProposal : ∀ task, run.futureProposalTask = some task → task.recvPanicked = false
  futureRcc : ∀ task, run.futureRccTask = some task → task.recvPanicked = false

def Node.ReceivesSurvive (n : Node) : Prop := ∀ run ∈ n.runs, run.ReceivesSurvive

/-- The task that the event polls does not wait at a receiver that has fallen behind. -/
def Run.KeepsUp (msgs : ConsensusMessages) (run : Run) : Event → Prop
  | .round _ => ∀ task, run.roundTask = some task → ¬ Lagging (task.waiting msgs)
  | .futureProposal _ =>
    ∀ task, run.futureProposalTask = some task → ¬ Lagging (task.waiting msgs)
  | .futureRcc => ∀ task, run.futureRccTask = some task → ¬ Lagging (task.waiting msgs)
  | _ => True

def Node.KeepsUp (n : Node) (ev : Event) : Prop :=
  ∀ run, n.run = some run → run.KeepsUp n.messages ev

variable {cfg : Config} {msgs msgs' : ConsensusMessages} {run run' : Run} {ev : Event}
  {n n' : Node}

theorem Run.Spawned.receivesSurvive (h : run.Spawned) : run.ReceivesSurvive where
  round task htask := by rw [h.round task htask]; rfl
  futureProposal task htask := by rw [h.futureProposal task htask]; rfl
  futureRcc task htask := by rw [h.futureRcc task htask]; rfl

/-- A step that polls no lagging receiver panics at no receive. -/
theorem RunStep.receivesSurvive (h : RunStep cfg msgs run ev msgs' run')
    (hkeeps : run.KeepsUp msgs ev) (hold : run.ReceivesSurvive) : run'.ReceivesSurvive := by
  cases h with
  | @round env task s htask hs =>
    refine ⟨fun task' h => ?_, hold.futureProposal, hold.futureRcc⟩
    cases h
    rw [← Bool.not_eq_true, RoundTask.recvPanicked_step_iff hs]
    exact hkeeps task htask
  | @futureProposal env task s htask hs =>
    refine ⟨hold.round, fun task' h => ?_, hold.futureRcc⟩
    cases h
    rw [← Bool.not_eq_true, FutureProposalTask.recvPanicked_step_iff hs]
    exact hkeeps task htask
  | @futureRcc task s htask hs =>
    refine ⟨hold.round, hold.futureProposal, fun task' h => ?_⟩
    cases h
    rw [← Bool.not_eq_true, FutureRccTask.recvPanicked_step_iff hs]
    exact hkeeps task htask
  | addOwnRoundChange =>
    refine ⟨fun task' h => ?_, hold.futureProposal, hold.futureRcc⟩
    cases h
    rfl
  | broadcastRoundChange | futureProposalReady | futureRccReady =>
    exact (Run.spawned_enterRound cfg _ _).receivesSurvive
  | cancel | roundFinished | timeoutCommit | timeoutEarly =>
    exact Run.Spawned.receivesSurvive (Run.spawned_abort run _)
  | _ => exact ⟨hold.round, hold.futureProposal, hold.futureRcc⟩

/-- **Receives survive while receivers keep up**: in a run whose steps poll no task at a receiver
more than `channelSize` notifications behind, no receive panics, whatever was admitted. -/
theorem receivesSurvive_of_keepsUp {height : UInt64}
    (hreach : ReachableWithin (Node.step cfg) Node.KeepsUp (Node.init cfg height) n)
    (hrun : run ∈ n.runs) : run.ReceivesSurvive := by
  have hall : n.ReceivesSurvive := by
    refine hreach.invariant_of (fun _ h => h) ?_ ?_
    · intro m ev m' _ _ hkeeps hold hstep
      refine (nodeStep_of_step hstep).forall_runs (P := fun _ run => run.ReceivesSurvive)
        (fun _ h => h) (fun _ => (Run.spawned_start cfg _ _).receivesSurvive) ?_ hold
      intro run run' hrun _ hrunstep h
      exact hrunstep.receivesSurvive (hkeeps run hrun) h
    · intro run hmem
      cases hmem
  exact hall run hrun

/-! ## Runs -/

instance (waiting : Option (Channel × Receiver)) : Decidable (Lagging waiting) :=
  match waiting with
  | none => isFalse fun ⟨_, _, h, _⟩ => nomatch h
  | some (_, _) => decidable_of_iff _ lagging_some_iff.symm

instance (msgs : ConsensusMessages) (run : Run) : (ev : Event) → Decidable (run.KeepsUp msgs ev)
  | .round _ =>
    inferInstanceAs (Decidable (∀ task ∈ run.roundTask, ¬ Lagging (task.waiting msgs)))
  | .futureProposal _ =>
    inferInstanceAs (Decidable (∀ task ∈ run.futureProposalTask, ¬ Lagging (task.waiting msgs)))
  | .futureRcc =>
    inferInstanceAs (Decidable (∀ task ∈ run.futureRccTask, ¬ Lagging (task.waiting msgs)))
  | .receive _ | .addPending | .runHeight _ | .main _ | .cancel | .roundFinished
  | .futureProposalReady | .futureRccReady | .timeout => isTrue trivial

instance (n : Node) (ev : Event) : Decidable (n.KeepsUp ev) :=
  inferInstanceAs (Decidable (∀ run ∈ n.run, run.KeepsUp n.messages ev))

/-- The first of four validators has read the notifications of the messages that arrived, and all
its tasks wait for more. -/
theorem receivesSurvive_of_keepsUp_sealing :
    sealingRun.roundTask = some (.recvCommit (digestBlock modelCrypto [7] 1) 3 2) ∧
      sealingRun.futureProposalTask = some (.recv 2) ∧
      sealingRun.futureRccTask = some (.recv 1 ((List.replicate 22 0).set 2 1)) ∧
      sealingRun.ReceivesSurvive :=
  ⟨by decide +kernel, by decide +kernel, by decide +kernel,
    receivesSurvive_of_keepsUp (reachableWithin_get (by decide +kernel) _) sealingRun_mem⟩

/-- A round change of the second validator for a later height. -/
def floodRoundChange (k : ℕ) : RoundChangeMessageSigned :=
  (RoundChangeMessage.new { height := UInt64.ofNat (k + 2), round := 1 } none).intoSigned
    modelCrypto (modelKey 1)

/-- The first validator monitors the round changes of height 1; before the monitor is polled again,
the handler admits 129 round changes for later heights. -/
def floodEvents : List Event :=
  List.flatten
    [[.runHeight 1], List.replicate 2 .futureRcc,
      (List.range 129).flatMap fun k =>
        [.receive (.roundChange (floodRoundChange k)), .addPending],
      [.futureRcc]]

theorem floodEvents_panic :
    ((exec (Node.step fourConfig) (Node.init fourConfig 0) floodEvents).bind Node.run).bind
        Run.futureRccTask
      = some (.panicked "Round change subscription should not close") := by
  decide +kernel

/-- The monitor of round changes panics. -/
theorem not_receivesSurvive_flood :
    ∃ n run, Reachable (Node.step fourConfig) (Node.init fourConfig 0) n ∧ run ∈ n.runs ∧
      ¬ run.ReceivesSurvive := by
  obtain ⟨run, hrun, htask⟩ := Option.bind_eq_some_iff.mp floodEvents_panic
  obtain ⟨n, hn, hrun⟩ := Option.bind_eq_some_iff.mp hrun
  refine ⟨n, run, ⟨floodEvents, hn⟩, List.mem_append_right _ (Option.mem_toList.mpr hrun), ?_⟩
  intro h
  have hsurvives := h.futureRcc _ htask
  revert hsurvives
  decide

end Tonic
