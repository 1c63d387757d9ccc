/-
# How long a run waits

The timeout of a round is the base time, doubled for every round before it.  A run waits at
most that long in each round that it enters, and enters each of the 22 rounds at most once,
so the timeouts of one height add up to less than the base time doubled 22 times; with two
seconds for the base these are the 97 days that the round limit was chosen by.  The chain is
declared dead only out of the last round, whose timeout alone is half of that.
-/
import Tonic.Assertions

namespace Tonic

open Transition

variable {cfg : Config} {n n' : Node} {run run' : Run} {ev : Event} {K : Knowledge}
  {msgs msgs' : ConsensusMessages}

/-! ## Timeouts of different rounds -/

/-- Within the limit the timeout of a round is the base time, doubled for every round before it,
or the greatest duration. -/
theorem getRoundTimeout_eq {round : UInt8} (h : round ≤ maxRound) (baseRoundTime : ℕ) :
    getRoundTimeout baseRoundTime round =
      some (min (baseRoundTime * 2 ^ round.toNat) durationMax) := by
  have hlt := toNat_lt_roundArraySize h
  rw [getRoundTimeout, timeoutMultiplier, List.getElem?_map, List.getElem?_range hlt]
  simp [Nat.one_shiftLeft]

/-- Different powers of two below a bound add up to less than the bound. -/
theorem sum_map_two_pow_lt {exponents : List ℕ} {bound : ℕ} (hnodup : exponents.Nodup)
    (hlt : ∀ k ∈ exponents, k < bound) : (exponents.map (2 ^ ·)).sum < 2 ^ bound := by
  rw [← List.sum_toFinset _ hnodup]
  exact Nat.geomSum_lt le_rfl fun k hk => hlt k (List.mem_toFinset.mp hk)

/-- All of them fall short of it by one. -/
theorem sum_map_two_pow_eq {exponents : List ℕ} {bound : ℕ} (hnodup : exponents.Nodup)
    (hlt : ∀ k ∈ exponents, k < bound) (hlength : exponents.length = bound) :
    (exponents.map (2 ^ ·)).sum = 2 ^ bound - 1 := by
  have hall : exponents.toFinset = Finset.range bound := by
    refine Finset.eq_of_subset_of_card_le (fun k hk => ?_) ?_
    · exact Finset.mem_range.mpr (hlt k (List.mem_toFinset.mp hk))
    · rw [Finset.card_range, List.toFinset_card_of_nodup hnodup, hlength]
  rw [← List.sum_toFinset _ hnodup, hall, Nat.geomSum_eq le_rfl, Nat.div_one]

/-! ## The rounds of a run -/

/-- The text of the panic of `run` beyond the last round. -/
def chainIsDead : String := "Not producing blocks for a long time, chain is dead"

namespace Run

/-- The rounds that the run has entered, oldest first. -/
def enteredRounds (run : Run) : List UInt8 :=
  run.log.filterMap fun
    | .entered view => some view.round
    | _ => none

/-- How long the run waits in each of them at most. -/
def waits (baseRoundTime : ℕ) (run : Run) : List ℕ :=
  run.enteredRounds.filterMap (getRoundTimeout baseRoundTime)

theorem mem_enteredRounds {round : UInt8} :
    round ∈ run.enteredRounds ↔ ∃ view, .entered view ∈ run.log ∧ view.round = round := by
  rw [enteredRounds, List.mem_filterMap]
  constructor
  · rintro ⟨a, ha, hround⟩
    cases a with
    | entered view => exact ⟨view, ha, Option.some.inj hround⟩
    | _ => cases hround
  · rintro ⟨view, hview, rfl⟩
    exact ⟨_, hview, rfl⟩

/-- The rounds are entered in their order. -/
theorem pairwise_enteredRounds (h : LogOk run.height run.log) :
    run.enteredRounds.Pairwise (· < ·) := by
  rw [enteredRounds, List.pairwise_filterMap]
  refine h.before.imp ?_
  intro a a' hbefore round hround round' hround'
  cases a with
  | entered view =>
    cases a' with
    | entered view' =>
      cases hround
      cases hround'
      exact hbefore
    | _ => cases hround'
  | _ => cases hround

variable {baseRoundTime : ℕ}

theorem waits_eq (h : ∀ round ∈ run.enteredRounds, round ≤ maxRound) :
    run.waits baseRoundTime = run.enteredRounds.map fun round =>
      min (baseRoundTime * 2 ^ round.toNat) durationMax := by
  rw [waits, ← List.filterMap_eq_map]
  refine List.filterMap_congr fun round hround => ?_
  exact getRoundTimeout_eq (h round hround) baseRoundTime

section Sums

variable (h : ∀ round ∈ run.enteredRounds, round ≤ maxRound)
  (hpairwise : run.enteredRounds.Pairwise (· < ·))

include h in
theorem lt_of_mem_enteredRounds : ∀ k ∈ run.enteredRounds.map UInt8.toNat, k < roundArraySize := by
  intro k hk
  obtain ⟨round, hround, rfl⟩ := List.mem_map.mp hk
  exact toNat_lt_roundArraySize (h round hround)

include hpairwise in
theorem nodup_toNat_enteredRounds : (run.enteredRounds.map UInt8.toNat).Nodup := by
  have hnodup : run.enteredRounds.Nodup := hpairwise.imp fun hlt => UInt8.ne_of_lt hlt
  exact hnodup.map fun a b heq => UInt8.toNat_inj.mp heq

include h hpairwise

theorem sum_waits_le : (run.waits baseRoundTime).sum ≤ baseRoundTime * (2 ^ roundArraySize - 1) := by
  have hsum := sum_map_two_pow_lt (nodup_toNat_enteredRounds hpairwise)
    (lt_of_mem_enteredRounds h)
  calc (run.waits baseRoundTime).sum
      ≤ (run.enteredRounds.map fun round => baseRoundTime * 2 ^ round.toNat).sum := by
        rw [waits_eq h]
        exact List.sum_le_sum fun round _ => min_le_left _ _
    _ = baseRoundTime * ((run.enteredRounds.map UInt8.toNat).map (2 ^ ·)).sum := by
        rw [List.sum_map_mul_left, List.map_map]
        rfl
    _ ≤ baseRoundTime * (2 ^ roundArraySize - 1) :=
        Nat.mul_le_mul_left _ (Nat.le_sub_one_of_lt hsum)

theorem sum_waits_eq (hbase : baseRoundTime * 2 ^ maxRound.toNat ≤ durationMax)
    (hlength : run.enteredRounds.length = roundArraySize) :
    (run.waits baseRoundTime).sum = baseRoundTime * (2 ^ roundArraySize - 1) := by
  have hsum := sum_map_two_pow_eq (nodup_toNat_enteredRounds hpairwise)
    (lt_of_mem_enteredRounds h) (by rw [List.length_map, hlength])
  have hexact : run.waits baseRoundTime =
      run.enteredRounds.map fun round => baseRoundTime * 2 ^ round.toNat := by
    rw [waits_eq h]
    refine List.map_congr_left fun round hround => min_eq_left (le_trans ?_ hbase)
    exact Nat.mul_le_mul_left _ (Nat.pow_le_pow_right Nat.two_pos (UInt8.le_iff_toNat_le.mp
      (h round hround)))
  rw [hexact, ← hsum, List.sum_map_mul_left, List.map_map]
  rfl

end Sums

/-! ## What a run has waited for -/

/-- A run at work has entered its round, every round change asks for the round after one that was
entered, and the chain is dead only after the last one. -/
structure Entered (run : Run) : Prop where
  current : (∀ why, run.phase ≠ .panicked why) → run.round ∈ run.enteredRounds
  roundChange : ∀ rc, .broadcast (.roundChange rc) ∈ run.log →
    ∃ round ∈ run.enteredRounds, rc.view.round = round + 1
  dead : run.phase = .panicked chainIsDead → maxRound ∈ run.enteredRounds

/-- What entering a round within the limit does. -/
theorem enterRound_of_le (cfg : Config) (run : Run) {round : UInt8} (h : ¬ maxRound < round) :
    (run.enterRound cfg round).round = round ∧
      (run.enterRound cfg round).log =
        run.log ++ [.entered { height := run.height, round }] ∧
      ∀ why, (run.enterRound cfg round).phase ≠ .panicked why := by
  unfold enterRound
  rw [if_neg h]
  simp only
  repeat' split
  all_goals exact ⟨rfl, rfl, by simp⟩

theorem subset_enteredRounds {actions : List Action} (hlog : run'.log = run.log ++ actions) :
    run.enteredRounds ⊆ run'.enteredRounds := by
  intro round hround
  obtain ⟨view, hview, rfl⟩ := mem_enteredRounds.mp hround
  refine mem_enteredRounds.mpr ⟨view, ?_, rfl⟩
  rw [hlog]
  exact List.mem_append_left _ hview

/-- A run that enters a round is in it, unless it was the end of the chain. -/
theorem enteredRounds_enterRound (cfg : Config) (run : Run) {round : UInt8}
    (hlast : maxRound < round → maxRound ∈ run.enteredRounds) :
    ((∀ why, (run.enterRound cfg round).phase ≠ .panicked why) →
        (run.enterRound cfg round).round ∈ (run.enterRound cfg round).enteredRounds) ∧
      ((run.enterRound cfg round).phase = .panicked chainIsDead →
        maxRound ∈ (run.enterRound cfg round).enteredRounds) := by
  by_cases hmax : maxRound < round
  · have hpanic : run.enterRound cfg round =
        { run.abort with phase := .panicked chainIsDead } := by
      unfold Run.enterRound
      rw [if_pos hmax]
      rfl
    rw [hpanic]
    exact ⟨fun h => absurd rfl (h _), fun _ => hlast hmax⟩
  · obtain ⟨hround, hlog, hphase⟩ := enterRound_of_le cfg run hmax
    refine ⟨fun _ => ?_, fun hdead => absurd hdead (hphase _)⟩
    refine mem_enteredRounds.mpr ⟨{ height := run.height, round }, ?_, hround.symm⟩
    rw [hlog]
    exact List.mem_append_right _ (List.mem_singleton_self _)

end Run

/-- Only the timeout of the last round declares the chain dead. -/
theorem Node.dead_of_stepMain {env : Env} (h : n.stepMain cfg run env = some n')
    (hrun' : n'.run = some run') (hdead : run'.phase = .panicked chainIsDead) :
    ∃ rc, run.phase = .broadcastRoundChange rc := by
  unfold Node.stepMain at h
  cases hp : run.phase with
  | broadcastRoundChange rc => exact ⟨rc, rfl⟩
  | timeoutTakePrepares p =>
    rw [hp] at h
    simp only at h
    cases h
    cases hrun'
    simp only at hdead
    split at hdead
    · -- The other text begins otherwise.
      have htext := congrArg String.toList (RunPhase.panicked.inj hdead)
      simp [chainIsDead, String.toList_append] at htext
    · cases hdead
  | takeFinalProposal | timeoutTakeProposal =>
    rw [hp] at h
    simp only at h
    cases h
    cases hrun'
    simp only at hdead
    split at hdead
    · exact absurd (RunPhase.panicked.inj hdead) (by decide)
    · cases hdead
  | broadcastBlock block =>
    rw [hp] at h
    simp only at h
    split at h
    · cases h
      cases hrun'
      cases hdead
    · cases h
      cases hrun'
      exact absurd (RunPhase.panicked.inj hdead) (by decide)
  | addOwnRoundChange | prune =>
    rw [hp] at h
    cases h
    cases hrun'
    cases hdead
  | select | returned | panicked =>
    rw [hp] at h
    cases h

namespace Run

/-- **One step** of a run keeps what is known of its rounds. -/
theorem Entered.step (h : run.Entered) (hinv : run.Inv cfg K)
    (hstored : ∀ v p, msgs.storedProposal v = some p → v.round ≤ maxRound)
    (hstep : RunStep cfg msgs run ev msgs' run')
    (hdead : ∀ env, ev = .main env → run'.phase = .panicked chainIsDead →
      ∃ rc, run.phase = .broadcastRoundChange rc) : run'.Entered := by
  obtain ⟨actions, hlog⟩ := hstep.log_append
  have hsub := subset_enteredRounds hlog
  have hchanges : ∀ rc, .broadcast (.roundChange rc) ∈ run'.log →
      ∃ round ∈ run'.enteredRounds, rc.view.round = round + 1 := by
    intro rc hrc
    rcases hstep.broadcast_mem_log hstored hinv hrc with hmem | ⟨task, -, hout⟩ |
      ⟨rc', heq, hphase⟩
    · obtain ⟨round, hround, hnext⟩ := h.roundChange rc hmem
      exact ⟨round, hsub hround, hnext⟩
    · cases task <;> cases hout
    · cases heq
      have hphaseInv := hinv.phase
      rw [hphase] at hphaseInv
      obtain ⟨-, -, hview⟩ := hphaseInv
      exact ⟨run.round, hsub (h.current (by simp [hphase])), by rw [hview]; rfl⟩
  cases hstep with
  | round | futureProposal | futureRcc =>
    exact ⟨fun hp => hsub (h.current hp), hchanges, fun hp => hsub (h.dead hp)⟩
  | broadcastRoundChange hp =>
    have hcurrent := h.current (by simp [hp])
    have hlast : maxRound < run.round + 1 → maxRound ∈ run.enteredRounds := by
      intro hlt
      have hround : run.round = maxRound := by
        have hle := hinv.round_le
        simp only [maxRound, UInt8.le_iff_toNat_le, UInt8.lt_iff_toNat_lt, UInt8.toNat_add,
          UInt8.reduceToNat, ← UInt8.toNat_inj] at hle hlt ⊢
        omega
      exact hround ▸ hcurrent
    obtain ⟨hround, hdead⟩ := enteredRounds_enterRound cfg
      { run with latestSelfRoundChange := some _, log := run.log ++ [.broadcast (.roundChange _)] }
      fun hlt => subset_enteredRounds rfl (hlast hlt)
    exact ⟨hround, hchanges, hdead⟩
  | futureProposalReady hp htask =>
    have hle := (hinv.proposalTask _ htask).2
    obtain ⟨hround, hdead⟩ := enteredRounds_enterRound cfg run.abort
      fun hlt => absurd hle (UInt8.not_le.mpr hlt)
    exact ⟨hround, hchanges, hdead⟩
  | futureRccReady hp htask =>
    have hle := (hinv.rccTask _ htask).2
    obtain ⟨hround, hdead⟩ := enteredRounds_enterRound cfg run.abort
      fun hlt => absurd hle (UInt8.not_le.mpr hlt)
    exact ⟨hround, hchanges, hdead⟩
  | addOwnRoundChange hp | finalProposalMissing hp | takeFinalProposal hp | broadcastBlock hp
  | prune hp | timeoutProposalMissing hp | timeoutTakeProposal hp | timeoutTakePrepares hp =>
    refine ⟨fun _ => hsub (h.current (by simp [hp])), hchanges, fun hp' => ?_⟩
    obtain ⟨rc, hrc⟩ := hdead _ rfl hp'
    rw [hp] at hrc
    cases hrc
  | cancel hp | roundFinished hp | timeoutCommit hp | timeoutEarly hp =>
    exact ⟨fun _ => hsub (h.current (by simp [hp])), hchanges, fun hp' => by cases hp'⟩

theorem entered_start (cfg : Config) (K : Knowledge) (msgs : ConsensusMessages) (height : UInt64) :
    (Run.start cfg msgs height).Entered := by
  have hnone : ∀ rc, .broadcast (.roundChange rc) ∉ (Run.start cfg msgs height).log := by
    intro rc hrc
    rcases (Node.inv_start cfg K msgs height).2 with hnil | hentered
    · rw [hnil] at hrc
      cases hrc
    · rw [hentered] at hrc
      cases List.mem_singleton.mp hrc
  unfold Run.start at hnone ⊢
  simp only at hnone ⊢
  split at hnone
  next hq =>
    rw [if_pos hq]
    exact ⟨fun h => absurd rfl (h _), fun rc hrc => absurd hrc (hnone rc),
      fun hdead => absurd (RunPhase.panicked.inj hdead) (by decide)⟩
  next hq =>
    rw [if_neg hq]
    obtain ⟨hround, hdead⟩ := enteredRounds_enterRound cfg _
      fun hlt => absurd hlt (UInt8.not_lt.mpr UInt8.zero_le)
    exact ⟨hround, fun rc hrc => absurd hrc (hnone rc), hdead⟩

end Run

/-! ## Every run of a node -/

theorem Node.entered_of_reachable {height : UInt64}
    (h : Reachable (Node.step cfg) (Node.init cfg height) n) : ∀ run ∈ n.runs, run.Entered := by
  refine h.invariant_of (I := fun n => ∀ run ∈ n.runs, run.Entered)
    (fun _ hn => Node.inv_of_reachable hn) ?_ (fun run hrun => by cases hrun)
  intro n ev n' hinv _ hold hstep
  refine (nodeStep_of_step hstep).forall_runs (P := fun _ run => run.Entered) (fun _ hP => hP)
    (Run.entered_start cfg n.knowledge n.messages) ?_ hold
  intro run run' hrun hrun' hrunstep hentered
  refine hentered.step (hinv.run run hrun) hinv.round_le_of_storedProposal hrunstep ?_
  rintro env rfl hdead
  have hmain : n.run.bind (fun run => n.stepMain cfg run env) = some n' := hstep
  rw [hrun, Option.bind_some] at hmain
  exact Node.dead_of_stepMain hmain hrun' hdead

/-- What is known of the timeouts of a run. -/
structure Run.Waited (baseRoundTime : ℕ) (run : Run) : Prop where
  rounds : run.enteredRounds.Pairwise (· < ·)
  timeouts : (run.waits baseRoundTime).length = run.enteredRounds.length
  /-- All timeouts are less than the base time doubled 22 times, -/
  sum_le : (run.waits baseRoundTime).sum ≤ baseRoundTime * (2 ^ roundArraySize - 1)
  /-- and only one base time less if no round is skipped. -/
  sum_eq : baseRoundTime * 2 ^ maxRound.toNat ≤ durationMax →
    run.enteredRounds.length = roundArraySize →
      (run.waits baseRoundTime).sum = baseRoundTime * (2 ^ roundArraySize - 1)
  /-- A round change asks for the round after one whose timeout is among them. -/
  roundChange : ∀ rc, .broadcast (.roundChange rc) ∈ run.log →
    ∃ round timeout, rc.view.round = round + 1 ∧ timeout ∈ run.waits baseRoundTime ∧
      getRoundTimeout baseRoundTime round = some timeout
  /-- The chain is declared dead only with the timeout of the last round among them. -/
  dead : run.phase = .panicked chainIsDead →
    ∃ timeout ∈ run.waits baseRoundTime, getRoundTimeout baseRoundTime maxRound = some timeout

theorem Run.mem_waits {baseRoundTime : ℕ} {round : UInt8} (hround : round ∈ run.enteredRounds)
    (hle : round ≤ maxRound) : ∃ timeout ∈ run.waits baseRoundTime,
      getRoundTimeout baseRoundTime round = some timeout := by
  have htimeout := getRoundTimeout_eq hle baseRoundTime
  exact ⟨_, List.mem_filterMap.mpr ⟨round, hround, htimeout⟩, htimeout⟩

/-- **The waiting of a run is bounded**: whatever happens to a run, the timeouts of the rounds that
it enters add up to less than the base time doubled 22 times; every round change of the run comes
out of a round whose timeout is one of them, and the panic for a dead chain out of the last. -/
theorem waiting_bounded {height : UInt64}
    (h : Reachable (Node.step cfg) (Node.init cfg height) n) (hrun : run ∈ n.runs)
    (baseRoundTime : ℕ) : run.Waited baseRoundTime := by
  have hinv := Node.inv_of_reachable h
  have hentered := Node.entered_of_reachable h run hrun
  have hpairwise := Run.pairwise_enteredRounds (hinv.logOk hrun)
  have hle : ∀ round ∈ run.enteredRounds, round ≤ maxRound := by
    intro round hround
    obtain ⟨view, hview, rfl⟩ := Run.mem_enteredRounds.mp hround
    exact hinv.actions _ (Node.mem_history hrun hview)
  refine ⟨hpairwise, ?_, Run.sum_waits_le hle hpairwise, Run.sum_waits_eq hle hpairwise, ?_, ?_⟩
  · rw [Run.waits_eq hle, List.length_map]
  · intro rc hrc
    obtain ⟨round, hround, hnext⟩ := hentered.roundChange rc hrc
    obtain ⟨timeout, hmem, htimeout⟩ := Run.mem_waits hround (hle round hround)
    exact ⟨round, timeout, hnext, hmem, htimeout⟩
  · intro hdead
    exact Run.mem_waits (hentered.dead hdead) UInt8.le_rfl

theorem waiting_bounded_four : fourRun.enteredRounds = [0, 1] ∧ fourRun.Waited (2 * 10 ^ 9) :=
  ⟨by decide +kernel, waiting_bounded fourNode_reachable fourRun_mem _⟩

/-- With two seconds for the base, 97 days. -/
example : 2 * (2 ^ roundArraySize - 1) / (24 * 60 * 60) = 97 := by decide

end Tonic
