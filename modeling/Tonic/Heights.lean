/-
# The heights of a node

A run that has broadcast its block hands the height to `update_height`, which asserts that
it grows, and prunes the store.  Whatever heights `run_height` is called with, and whether
its runs are cancelled or panic, the blocks it returns are the broadcast ones whose height
is above all returned before: no height is returned twice, though it may be decided twice.
-/
import Tonic.RelatedLists
import Tonic.StoreStep
import Tonic.UsableRoundChange
import Tonic.ModelCrypto

namespace Tonic

open Transition RelatedLists

variable {cfg : Config} {n n' : Node} {run run' : Run} {ev : Event} {env : Env}
  {msgs msgs' : ConsensusMessages}

/-! ## The end of `run_height` -/

/-- `update_height` has accepted the block of the run. -/
def RunPhase.updated : RunPhase → Bool
  | .prune _ | .returned (some _) => true
  | _ => false

/-- The text of the assertion in `update_height`. -/
def updateHeightMessage : String := "Updated height must always be higher than the current height"

/-- The task of `run_height` while it hands over the block: the height is new, or it panics. -/
theorem Node.broadcastBlock_of_step {block : FinalizedBlock} (hrun : n.run = some run)
    (hphase : run.phase = .broadcastBlock block) (hstep : n.step cfg (.main env) = some n') :
    ∃ run', n'.run = some run' ∧ run'.height = run.height ∧
      run'.log = run.log ++ [.finalized run.height block] ∧ n'.past = n.past ∧
      (n.height < run.height ∧ n'.height = run.height ∧ run'.phase = .prune block ∨
        ¬ n.height < run.height ∧ n'.height = n.height ∧
          run'.phase = .panicked updateHeightMessage) := by
  have hmain : n.run.bind (fun run => n.stepMain cfg run env) = some n' := hstep
  rw [hrun, Option.bind_some, Node.stepMain, hphase] at hmain
  simp only at hmain
  split at hmain
  next hlt =>
    cases hmain
    exact ⟨_, rfl, rfl, rfl, rfl, Or.inl ⟨hlt, rfl, rfl⟩⟩
  next hle =>
    cases hmain
    exact ⟨_, rfl, rfl, rfl, rfl, Or.inr ⟨hle, rfl, rfl⟩⟩

/-- The task of `run_height` while it prunes. -/
theorem Node.prune_of_step {block : FinalizedBlock} (hrun : n.run = some run)
    (hphase : run.phase = .prune block) (hstep : n.step cfg (.main env) = some n') :
    n' = { n with
      messages := n.messages.prune (n.height + 1)
      run := some { run with phase := .returned (some block) } } := by
  have hmain : n.run.bind (fun run => n.stepMain cfg run env) = some n' := hstep
  rw [hrun, Option.bind_some, Node.stepMain, hphase] at hmain
  cases hmain
  rfl

/-- The event is the handing over of the block of the run. -/
def Run.HandsOver (run : Run) (ev : Event) : Prop :=
  ∃ env block, ev = .main env ∧ run.phase = .broadcastBlock block

/-- No other step sets the height. -/
theorem Node.height_of_step (hstep : n.step cfg ev = some n')
    (hother : ∀ run, n.run = some run → ¬ run.HandsOver ev) : n'.height = n.height := by
  cases ev with
  | receive m =>
    have hreceive : n.receive cfg m = some n' := hstep
    unfold Node.receive at hreceive
    split at hreceive <;> cases hreceive
    rfl
  | addPending =>
    have hadd : n.addPending = some n' := hstep
    unfold Node.addPending at hadd
    split at hadd <;> cases hadd
    rfl
  | runHeight height =>
    have hcall : n.runHeight cfg height = some n' := hstep
    unfold Node.runHeight at hcall
    repeat' split at hcall
    all_goals cases hcall
    all_goals rfl
  | round env =>
    obtain ⟨run, -, h⟩ := Option.bind_eq_some_iff.mp hstep
    obtain ⟨task, -, h⟩ := Option.bind_eq_some_iff.mp h
    obtain ⟨s, -, h⟩ := Option.bind_eq_some_iff.mp h
    cases h
    rfl
  | futureProposal env =>
    obtain ⟨run, -, h⟩ := Option.bind_eq_some_iff.mp hstep
    obtain ⟨task, -, h⟩ := Option.bind_eq_some_iff.mp h
    obtain ⟨s, -, h⟩ := Option.bind_eq_some_iff.mp h
    cases h
    rfl
  | futureRcc =>
    obtain ⟨run, -, h⟩ := Option.bind_eq_some_iff.mp hstep
    obtain ⟨task, -, h⟩ := Option.bind_eq_some_iff.mp h
    obtain ⟨s, -, h⟩ := Option.bind_eq_some_iff.mp h
    cases h
    rfl
  | main env =>
    obtain ⟨run, hrun, h⟩ := Option.bind_eq_some_iff.mp hstep
    -- Among the phases only the handing over calls `update_height`.
    cases hphase : run.phase with
    | broadcastBlock block => exact absurd ⟨env, block, rfl, hphase⟩ (hother run hrun)
    | _ =>
      rw [Node.stepMain, hphase] at h
      cases h <;> rfl
  | cancel | roundFinished | futureProposalReady | futureRccReady | timeout =>
    obtain ⟨run, -, h⟩ := Option.bind_eq_some_iff.mp hstep
    unfold Node.stepSelect at h
    split at h
    · simp only at h
      first
      | cases h; rfl
      | (split at h <;> cases h; rfl)
    · cases h

theorem Run.updated_enterRound (cfg : Config) (run : Run) (round : UInt8) :
    (run.enterRound cfg round).phase.updated = false := by
  rcases run.enterRound_cases cfg round with
    ⟨⟨why, hp⟩, -⟩ | ⟨⟨hp, -⟩ | ⟨⟨rc, hp⟩, -⟩, -⟩ <;> rw [hp] <;> rfl

/-- A step of a run that is not the handing over of its block. -/
theorem RunStep.updated_eq (h : RunStep cfg msgs run ev msgs' run')
    (hother : ¬ run.HandsOver ev) : run'.phase.updated = run.phase.updated := by
  cases h with
  | round | futureProposal | futureRcc => rfl
  | broadcastBlock hp => exact absurd ⟨_, _, rfl, hp⟩ hother
  | broadcastRoundChange hp | futureProposalReady hp | futureRccReady hp =>
    rw [hp, Run.updated_enterRound]
    rfl
  | timeoutTakePrepares hp hnext =>
    rw [hp]
    rcases hnext with ⟨why, rfl⟩ | ⟨-, rfl⟩ <;> rfl
  | addOwnRoundChange hp | finalProposalMissing hp | takeFinalProposal hp | prune hp
  | timeoutProposalMissing hp | timeoutTakeProposal hp | cancel hp | roundFinished hp
  | timeoutCommit hp | timeoutEarly hp =>
    rw [hp]
    rfl

/-! ## All heights -/

/-- The heights of the runs whose blocks `update_height` has accepted. -/
def acceptedHeights (runs : List Run) : List UInt64 :=
  (runs.filter (fun run => run.phase.updated)).map Run.height

/-- The heights of the blocks that `update_height` has accepted, oldest first. -/
def Node.updatedHeights (n : Node) : List UInt64 := acceptedHeights n.runs

theorem Node.updatedHeights_eq (hrun : n.run = some run) :
    n.updatedHeights = acceptedHeights n.past ++
      if run.phase.updated then [run.height] else [] := by
  rw [Node.updatedHeights, acceptedHeights, Node.runs, hrun, List.filter_append, List.map_append]
  congr 1
  cases h : run.phase.updated <;> simp [h]

theorem Run.updated_start (cfg : Config) (msgs : ConsensusMessages) (height : UInt64) :
    (Run.start cfg msgs height).phase.updated = false := by
  unfold Run.start
  simp only
  split
  · rfl
  · exact Run.updated_enterRound cfg _ 0

/-- **One step** leaves the heights alone, or adds a greater one. -/
theorem Node.updatedHeights_of_step (hstep : n.step cfg ev = some n') :
    (n'.height = n.height ∧ n'.updatedHeights = n.updatedHeights) ∨
      (n.height < n'.height ∧ n'.updatedHeights = n.updatedHeights ++ [n'.height]) := by
  by_cases hother : ∀ run, n.run = some run → ¬ run.HandsOver ev
  · left
    refine ⟨Node.height_of_step hstep hother, ?_⟩
    cases nodeStep_of_step hstep with
    | receive | addPending => rfl
    | @runHeight height past hpast =>
      have hstart := Run.updated_start cfg n.messages height
      rw [Node.updatedHeights_eq rfl, hstart, hpast]
      simp [Node.updatedHeights]
    | @run ev run run' msgs height hrun hrunstep =>
      rw [Node.updatedHeights_eq hrun, Node.updatedHeights_eq rfl,
        hrunstep.updated_eq (hother run hrun), hrunstep.same.1]
  · push Not at hother
    obtain ⟨run, hrun, env, block, rfl, hphase⟩ := hother
    obtain ⟨run', hrun', hsame, -, hpast, hcases⟩ := Node.broadcastBlock_of_step hrun hphase hstep
    rw [Node.updatedHeights_eq hrun, Node.updatedHeights_eq hrun', hpast, hphase, hsame]
    rcases hcases with ⟨hlt, hheight, hp⟩ | ⟨-, hheight, hp⟩
    · right
      rw [hp, hheight]
      exact ⟨hlt, by simp [RunPhase.updated]⟩
    · left
      rw [hp]
      exact ⟨hheight, rfl⟩

/-- The heights of a node that began with the given one. -/
structure Node.HeightsGrow (first : UInt64) (n : Node) : Prop where
  /-- Every accepted block is of a greater height than all blocks before it. -/
  increasing : (first :: n.updatedHeights).Pairwise (· < ·)
  /-- The handler goes by the height of the last one. -/
  last : (first :: n.updatedHeights).getLast? = some n.height

/-- The height of a node is the first one or that of an accepted block. -/
theorem Node.HeightsGrow.height_cases {first : UInt64} (h : n.HeightsGrow first) :
    n.height = first ∨ ∃ run ∈ n.runs, run.height = n.height ∧ run.phase.updated = true := by
  rcases List.mem_cons.mp (List.mem_of_getLast? h.last) with hfirst | hmem
  · exact Or.inl hfirst
  · obtain ⟨run, hrun, hheight⟩ := List.mem_map.mp hmem
    obtain ⟨hrun, hupdated⟩ := List.mem_filter.mp hrun
    exact Or.inr ⟨run, hrun, hheight, hupdated⟩

/-- The height of the node is the greatest of all. -/
theorem Node.HeightsGrow.lt_iff {first : UInt64} (h : n.HeightsGrow first) (height : UInt64) :
    n.height < height ↔ ∀ earlier ∈ first :: n.updatedHeights, earlier < height := by
  constructor
  · intro hlt earlier hmem
    obtain ⟨front, hfront⟩ := List.getLast?_eq_some_iff.mp h.last
    have hincreasing := h.increasing
    rw [hfront] at hmem hincreasing
    rcases List.mem_append.mp hmem with hmem | hmem
    · have hbefore := (List.pairwise_append.mp hincreasing).2.2 earlier hmem _ List.mem_cons_self
      exact UInt64.lt_trans hbefore hlt
    · rwa [List.mem_singleton.mp hmem]
  · intro hall
    exact hall _ (List.mem_of_getLast? h.last)

theorem Node.HeightsGrow.step {first : UInt64} (h : n.HeightsGrow first)
    (hstep : n.step cfg ev = some n') : n'.HeightsGrow first := by
  rcases Node.updatedHeights_of_step hstep with ⟨hheight, hsame⟩ | ⟨hlt, hadded⟩
  · refine ⟨?_, ?_⟩
    · rw [hsame]
      exact h.increasing
    · rw [hsame, hheight]
      exact h.last
  · refine ⟨?_, ?_⟩
    · rw [hadded, ← List.cons_append, List.pairwise_append]
      refine ⟨h.increasing, List.pairwise_singleton _ _, fun a ha c hc => ?_⟩
      rw [List.mem_singleton.mp hc]
      exact (h.lt_iff n'.height).mp hlt a ha
    · rw [hadded, ← List.cons_append, List.getLast?_concat]

theorem Node.heightsGrow_of_reachable {first : UInt64}
    (h : Reachable (Node.step cfg) (Node.init cfg first) n) : n.HeightsGrow first :=
  h.invariant (fun _ _ _ hold hstep => hold.step hstep) ⟨List.pairwise_singleton _ _, rfl⟩

/-! ## Every call and the calls before it -/

/-- The call returns the block, or does so once the store is pruned. -/
def RunPhase.Returns (phase : RunPhase) (block : FinalizedBlock) : Prop :=
  phase = .prune block ∨ phase = .returned (some block)

/-- What becomes of the block of a run, after calls that have returned blocks of these heights. -/
structure Run.HandedOver (earlier : List UInt64) (run : Run) : Prop where
  /-- It is returned exactly if it was broadcast and its height is above all of them. -/
  returns_iff : ∀ block, run.phase.Returns block ↔
    .finalized run.height block ∈ run.log ∧ ∀ height ∈ earlier, height < run.height
  /-- If it was broadcast and its height is not above one of them, then the call panics. -/
  panics : ∀ block, .finalized run.height block ∈ run.log → ∀ height ∈ earlier,
    ¬ height < run.height → run.phase = .panicked updateHeightMessage

theorem RunPhase.Returns.updated {phase : RunPhase} {block : FinalizedBlock}
    (h : phase.Returns block) : phase.updated = true := by
  rcases h with rfl | rfl <;> rfl

theorem RunPhase.over_of_updated {phase : RunPhase} (h : phase.updated = true) : phase.Over := by
  cases phase <;> first | exact trivial | cases h

/-- A run that has broadcast its block is over. -/
theorem Run.HandedOver.over {earlier : List UInt64} (h : run.HandedOver earlier)
    {block : FinalizedBlock} (hlog : .finalized run.height block ∈ run.log) : run.phase.Over := by
  by_cases hall : ∀ height ∈ earlier, height < run.height
  · exact RunPhase.over_of_updated ((h.returns_iff block).mpr ⟨hlog, hall⟩).updated
  · push Not at hall
    obtain ⟨height, hmem, hle⟩ := hall
    rw [h.panics block hlog height hmem hle]
    exact trivial

/-- Only the handing over broadcasts a block. -/
theorem RunStep.mem_finalized_iff (h : RunStep cfg msgs run ev msgs' run')
    (hother : ¬ run.HandsOver ev) {height : UInt64} {block : FinalizedBlock} :
    .finalized height block ∈ run'.log ↔ .finalized height block ∈ run.log := by
  constructor
  · intro hmem
    rcases h.mem_finalized hmem with hold | ⟨hphase, -, hover⟩
    · exact hold
    · -- A step that leaves this phase hands the block over.
      cases h with
      | broadcastBlock => exact absurd ⟨_, _, rfl, hphase⟩ hother
      | round | futureProposal | futureRcc =>
        rw [hphase] at hover
        cases hover
      | addOwnRoundChange hp | finalProposalMissing hp | takeFinalProposal hp | prune hp
      | timeoutProposalMissing hp | timeoutTakeProposal hp | timeoutTakePrepares hp
      | broadcastRoundChange hp | cancel hp | roundFinished hp | futureProposalReady hp
      | futureRccReady hp | timeoutCommit hp | timeoutEarly hp =>
        rw [hphase] at hp
        cases hp
  · intro hmem
    obtain ⟨actions, hlog⟩ := h.log_append
    rw [hlog]
    exact List.mem_append_left _ hmem

/-- A step of the run that is not the handing over of its block. -/
theorem Run.HandedOver.step {earlier : List UInt64} (h : run.HandedOver earlier)
    (hstep : RunStep cfg msgs run ev msgs' run') (hother : ¬ run.HandsOver ev) :
    run'.HandedOver earlier := by
  have hheight : run'.height = run.height := hstep.same.1
  by_cases hover : run.phase.Over
  · have hphase := (hstep.phase_of_over hover).2
    have hreturns : ∀ block, run'.phase.Returns block ↔ run.phase.Returns block := by
      intro block
      rcases hphase with hsame | ⟨b, hprune, hreturned⟩
      · rw [hsame]
      · simp [RunPhase.Returns, hprune, hreturned]
    have hpanicked : ∀ why, run.phase = .panicked why → run'.phase = .panicked why := by
      intro why hwhy
      rcases hphase with hsame | ⟨b, hprune, -⟩
      · rw [hsame, hwhy]
      · rw [hwhy] at hprune
        cases hprune
    refine ⟨fun block => ?_, fun block hlog height hmem hle => ?_⟩
    · rw [hreturns, hheight, hstep.mem_finalized_iff hother]
      exact h.returns_iff block
    · rw [hheight, hstep.mem_finalized_iff hother] at hlog
      rw [hheight] at hle
      exact hpanicked _ (h.panics block hlog height hmem hle)
  · -- The run has not broadcast a block yet, and does not with this step.
    have hnone : ∀ block, .finalized run'.height block ∉ run'.log := by
      intro block hlog
      rw [hheight, hstep.mem_finalized_iff hother] at hlog
      exact hover (h.over hlog)
    refine ⟨fun block => ⟨fun hreturns => ?_, fun hlog => absurd hlog.1 (hnone block)⟩,
      fun block hlog => absurd hlog (hnone block)⟩
    have hupdated := hreturns.updated
    rw [hstep.updated_eq hother] at hupdated
    exact absurd (RunPhase.over_of_updated hupdated) hover

/-- A run starts without a block. -/
theorem Run.handedOver_start (cfg : Config) (msgs : ConsensusMessages) (height : UInt64)
    (earlier : List UInt64) : (Run.start cfg msgs height).HandedOver earlier := by
  have hstart := Run.updated_start cfg msgs height
  have hnone : ∀ h block, .finalized h block ∉ (Run.start cfg msgs height).log := by
    intro h block hlog
    rcases (Node.inv_start cfg (Node.init cfg 0).knowledge msgs height).2 with hnil | hentered
    · rw [hnil] at hlog
      cases hlog
    · rw [hentered] at hlog
      cases List.mem_singleton.mp hlog
  refine ⟨fun block => ⟨fun hreturns => ?_, fun hlog => absurd hlog.1 (hnone _ block)⟩,
    fun block hlog => absurd hlog (hnone _ block)⟩
  rw [hreturns.updated] at hstart
  cases hstart

/-- The run that hands over its block. -/
theorem Run.HandedOver.handOver {earlier : List UInt64} {block : FinalizedBlock}
    (h : run.HandedOver earlier) (hphase : run.phase = .broadcastBlock block)
    (hheight : run'.height = run.height)
    (hlog : run'.log = run.log ++ [.finalized run.height block])
    (hphase' : (∀ height ∈ earlier, height < run.height) ∧ run'.phase = .prune block ∨
      (∃ height ∈ earlier, ¬ height < run.height) ∧ run'.phase = .panicked updateHeightMessage) :
    run'.HandedOver earlier := by
  -- It has not broadcast a block before.
  have honly : ∀ b, .finalized run'.height b ∈ run'.log ↔ b = block := by
    intro b
    rw [hheight, hlog, List.mem_append, List.mem_singleton]
    constructor
    · rintro (hold | hnew)
      · have hover := h.over hold
        rw [hphase] at hover
        cases hover
      · cases hnew
        rfl
    · rintro rfl
      exact Or.inr rfl
  rcases hphase' with ⟨habove, hphase'⟩ | ⟨⟨height, hmem, hle⟩, hphase'⟩
  · refine ⟨fun b => ?_, fun b _ height hmem hle => ?_⟩
    · rw [honly, hheight, hphase']
      constructor
      · rintro (hb | hb) <;> cases hb
        exact ⟨rfl, habove⟩
      · rintro ⟨rfl, -⟩
        exact Or.inl rfl
    · rw [hheight] at hle
      exact absurd (habove height hmem) hle
  · refine ⟨fun b => ⟨?_, ?_⟩, fun _ _ _ _ _ => hphase'⟩
    · rw [hphase']
      rintro (hb | hb) <;> cases hb
    · rintro ⟨-, hall⟩
      rw [hheight] at hall
      exact absurd (hall height hmem) hle

/-- What has become of the blocks of all calls. -/
def Node.BlocksHandedOver (first : UInt64) (n : Node) : Prop :=
  EachAfter (fun before run => run.HandedOver (first :: acceptedHeights before)) n.runs

theorem Node.BlocksHandedOver.step {first : UInt64} (h : n.BlocksHandedOver first)
    (hgrow : n.HeightsGrow first) (hstep : n.step cfg ev = some n') :
    n'.BlocksHandedOver first := by
  cases nodeStep_of_step hstep with
  | receive | addPending => exact h
  | @runHeight height past hpast =>
    rw [Node.BlocksHandedOver, Node.runs, Option.toList_some, eachAfter_concat, hpast]
    exact ⟨h, Run.handedOver_start cfg n.messages height _⟩
  | @run ev run run' msgs height hrun hrunstep =>
    rw [Node.BlocksHandedOver, Node.runs, hrun, Option.toList_some, eachAfter_concat] at h
    rw [Node.BlocksHandedOver, Node.runs, Option.toList_some, eachAfter_concat]
    refine ⟨h.1, ?_⟩
    by_cases hother : run.HandsOver ev
    · obtain ⟨env, block, rfl, hphase⟩ := hother
      obtain ⟨run'', hrun'', hheight, hlog, -, hcases⟩ :=
        Node.broadcastBlock_of_step hrun hphase hstep
      cases hrun''
      have hearlier : n.updatedHeights = acceptedHeights n.past := by
        rw [Node.updatedHeights_eq hrun, hphase]
        exact List.append_nil _
      have hlt := hgrow.lt_iff run.height
      rw [hearlier] at hlt
      refine h.2.handOver hphase hheight hlog ?_
      rcases hcases with ⟨habove, -, hprune⟩ | ⟨hle, -, hpanicked⟩
      · exact Or.inl ⟨hlt.mp habove, hprune⟩
      · rw [hlt] at hle
        push Not at hle
        exact Or.inr ⟨by simpa using hle, hpanicked⟩
    · exact h.2.step hrunstep hother

theorem Node.blocksHandedOver_of_reachable {first : UInt64}
    (h : Reachable (Node.step cfg) (Node.init cfg first) n) : n.BlocksHandedOver first :=
  h.invariant_of (fun _ hreach => Node.heightsGrow_of_reachable hreach)
    (fun _ _ _ hgrow _ hold hstep => hold.step hgrow hstep) eachAfter_nil

/-- **No height is returned twice**: whatever heights `run_height` is called with and whatever
happens to its runs, a call returns the block it has broadcast exactly if the height is above all
heights returned before, and panics otherwise. -/
theorem heights_grow {first : UInt64}
    (h : Reachable (Node.step cfg) (Node.init cfg first) n) :
    n.HeightsGrow first ∧ n.BlocksHandedOver first :=
  ⟨Node.heightsGrow_of_reachable h, Node.blocksHandedOver_of_reachable h⟩

/-- A single validator decides a height in its first round. -/
def decideEvents (height : UInt64) (rawBlock : RawBlock) : List Event :=
  .runHeight height :: List.replicate 7 (.round (modelEnv rawBlock)) ++
    .roundFinished :: List.replicate 2 (.main (modelEnv rawBlock))

/-- It decides height 1, then height 1 again with another block, and then height 3. -/
def repeatedNode : Node :=
  (exec (Node.step soloConfig) (Node.init soloConfig 0)
    (decideEvents 1 [7] ++ .main (modelEnv [7]) :: decideEvents 1 [8] ++
      decideEvents 3 [9])).get (by decide +kernel)

/-- The second block of height 1 is broadcast, too, but the call panics. -/
theorem heights_grow_repeated :
    repeatedNode.runs.map Run.height = [1, 1, 3] ∧ repeatedNode.updatedHeights = [1, 3] ∧
      repeatedNode.HeightsGrow 0 ∧ repeatedNode.BlocksHandedOver 0 :=
  ⟨by decide +kernel, by decide +kernel, heights_grow (reachable_get _)⟩

end Tonic
