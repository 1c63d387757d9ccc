/-
# A node does not contradict itself

What the log of a run says about the messages it broadcasts: rounds only go up, a view
gets at most one proposal, one prepare and one commit, all for one digest, and a round
change closes all rounds below its own.  The invariant of a node keeps the log in this
form; here it is read off, and stated of every run of every reachable node.
-/
import Tonic.NodeInvariant
import Tonic.ModelCrypto

namespace Tonic

open Transition

/-! ## Which actions -/

def Action.isProposalAt (view : View) : Action → Bool
  | .broadcast (.proposal p) => p.view = view
  | _ => false

def Action.isPrepareAt (view : View) : Action → Bool
  | .broadcast (.prepare m) => m.view = view
  | _ => false

def Action.isCommitAt (view : View) : Action → Bool
  | .broadcast (.commit m) => m.view = view
  | _ => false

def Action.isRoundChangeAt (view : View) : Action → Bool
  | .broadcast (.roundChange m) => m.view = view
  | _ => false

/-- The rounds entered, in order. -/
def enteredRounds (log : List Action) : List UInt8 :=
  log.filterMap fun
    | .entered view => some view.round
    | _ => none

/-- What a run may have broadcast. -/
structure NoEquivocation (log : List Action) : Prop where
  rounds_increase : (enteredRounds log).Pairwise (· < ·)
  rounds_le : ∀ r ∈ enteredRounds log, r ≤ maxRound
  one_proposal : ∀ v, log.countP (Action.isProposalAt v) ≤ 1
  one_prepare : ∀ v, log.countP (Action.isPrepareAt v) ≤ 1
  one_commit : ∀ v, log.countP (Action.isCommitAt v) ≤ 1
  /-- The digest of a commit is the one proposed or prepared in its view. -/
  commit_digest : ∀ m, Action.broadcast (.commit m) ∈ log →
    (∃ p, Action.broadcast (.proposal p) ∈ log ∧ p.view = m.view ∧
      p.proposedBlockDigest = m.proposedBlockDigest) ∨
    ∃ m', Action.broadcast (.prepare m') ∈ log ∧ m'.view = m.view ∧
      m'.proposedBlockDigest = m.proposedBlockDigest
  not_both : ∀ p m, Action.broadcast (.proposal p) ∈ log →
    Action.broadcast (.prepare m) ∈ log → p.view ≠ m.view
  one_round_change : ∀ v, log.countP (Action.isRoundChangeAt v) ≤ 1
  /-- No prepare or commit for a round below that of an earlier round change. -/
  closed_rounds : log.Pairwise fun a b => ∀ rc, a = .broadcast (.roundChange rc) →
    (∀ m, b = .broadcast (.prepare m) → rc.view.round ≤ m.view.round) ∧
      ∀ m, b = .broadcast (.commit m) → rc.view.round ≤ m.view.round

/-! ## Reading it off the log -/

section Counts

variable {log : List Action} {v : View}

/-- Counting actions of a view is counting its votes. -/
theorem countP_votesAt {isAction : Action → Bool} {isVote : Vote → Bool}
    (h : ∀ a, isAction a = ((a.voteAt v).map isVote).getD false) :
    log.countP isAction = (votesAt log v).countP isVote := by
  rw [votesAt, List.countP_filterMap]
  congr 1
  funext a
  exact h a

theorem isProposalAt_eq (a : Action) :
    a.isProposalAt v = ((a.voteAt v).map Vote.isPropose).getD false := by
  cases a with
  | broadcast m => cases m <;> simp only [Action.voteAt, IBFTMessage.vote?] <;> split <;>
      simp_all [Action.isProposalAt, Vote.isPropose, IBFTMessage.view]
  | entered | verifiedBlock | finalized => rfl

theorem isPrepareAt_eq (a : Action) :
    a.isPrepareAt v = ((a.voteAt v).map Vote.isPrepare).getD false := by
  cases a with
  | broadcast m => cases m <;> simp only [Action.voteAt, IBFTMessage.vote?] <;> split <;>
      simp_all [Action.isPrepareAt, Vote.isPrepare, IBFTMessage.view]
  | entered | verifiedBlock | finalized => rfl

theorem isCommitAt_eq (a : Action) :
    a.isCommitAt v = ((a.voteAt v).map Vote.isCommit).getD false := by
  cases a with
  | broadcast m => cases m <;> simp only [Action.voteAt, IBFTMessage.vote?] <;> split <;>
      simp_all [Action.isCommitAt, Vote.isCommit, IBFTMessage.view]
  | entered | verifiedBlock | finalized => rfl

/-- A sound sequence has at most one vote of each kind. -/
theorem VoteSequence.countP_le {votes : List Vote} (h : VoteSequence votes) :
    votes.countP Vote.isPropose ≤ 1 ∧ votes.countP Vote.isPrepare ≤ 1 ∧
      votes.countP Vote.isCommit ≤ 1 := by
  cases h <;> simp [List.countP_cons, Vote.isPropose, Vote.isPrepare, Vote.isCommit]

/-- What may not occur twice in order occurs at most once. -/
theorem countP_le_one_of_pairwise {α : Type} {R : α → α → Prop} {p : α → Bool} {xs : List α}
    (h : xs.Pairwise R) (hR : ∀ a b, p a = true → p b = true → ¬ R a b) : xs.countP p ≤ 1 := by
  have hfilter := h.filter p
  rw [List.countP_eq_length_filter]
  have hp : ∀ a ∈ xs.filter p, p a = true := fun a ha => (List.mem_filter.mp ha).2
  match xs.filter p, hfilter, hp with
  | [], _, _ => exact Nat.zero_le _
  | [_], _, _ => exact le_rfl
  | a :: b :: _, hpair, hp =>
    have hab := (List.pairwise_cons.mp hpair).1 b List.mem_cons_self
    exact absurd hab (hR a b (hp a List.mem_cons_self)
      (hp b (List.mem_cons_of_mem _ List.mem_cons_self)))

end Counts

theorem enteredRounds_pairwise {log : List Action} (h : log.Pairwise Before) :
    (enteredRounds log).Pairwise (· < ·) := by
  rw [enteredRounds, List.pairwise_filterMap]
  refine h.imp fun {a b} hab r hr r' hr' => ?_
  cases a with
  | entered v =>
    cases b with
    | entered w =>
      cases hr
      cases hr'
      exact hab
    | broadcast | verifiedBlock | finalized => cases hr'
  | broadcast | verifiedBlock | finalized => cases hr

theorem not_before_of_isRoundChangeAt {v : View} {a b : Action}
    (ha : a.isRoundChangeAt v = true) (hb : b.isRoundChangeAt v = true) : ¬ Before a b := by
  cases a with
  | broadcast m =>
    cases m with
    | roundChange m =>
      cases b with
      | broadcast m' =>
        cases m' with
        | roundChange m' =>
          intro h
          have hm : m.view = v := of_decide_eq_true ha
          have hm' : m'.view = v := of_decide_eq_true hb
          have hlt : m.view.round < m'.view.round := h
          rw [hm, hm'] at hlt
          exact absurd hlt (UInt8.lt_irrefl _)
        | proposal | prepare | commit => cases hb
      | entered | verifiedBlock | finalized => cases hb
    | proposal | prepare | commit => cases ha
  | entered | verifiedBlock | finalized => cases ha

/-- A sound log contains no contradiction. -/
theorem LogOk.noEquivocation {height : UInt64} {log : List Action} (h : LogOk height log)
    (hrounds : ∀ w, Action.entered w ∈ log → w.round ≤ maxRound) : NoEquivocation log where
  rounds_increase := enteredRounds_pairwise h.before
  rounds_le r hr := by
    obtain ⟨a, ha, hr⟩ := List.mem_filterMap.mp hr
    cases a with
    | entered w =>
      cases hr
      exact hrounds w ha
    | broadcast | verifiedBlock | finalized => cases hr
  one_proposal v := by
    rw [countP_votesAt isProposalAt_eq]
    exact (h.votes v).countP_le.1
  one_prepare v := by
    rw [countP_votesAt isPrepareAt_eq]
    exact (h.votes v).countP_le.2.1
  one_commit v := by
    rw [countP_votesAt isCommitAt_eq]
    exact (h.votes v).countP_le.2.2
  commit_digest m hm := by
    have hvote : Vote.commit m.proposedBlockDigest ∈ votesAt log m.view :=
      mem_votesAt.mpr ⟨.commit m, hm, rfl, rfl⟩
    have hback : Vote.propose m.proposedBlockDigest ∈ votesAt log m.view ∨
        Vote.prepare m.proposedBlockDigest ∈ votesAt log m.view := by
      have hseq := h.votes m.view
      generalize votesAt log m.view = votes at hvote hseq
      cases hseq <;> simp_all
    rcases hback with hback | hback
    · obtain ⟨m', hm', hview, hvote'⟩ := mem_votesAt.mp hback
      cases m' with
      | proposal p => exact Or.inl ⟨p, hm', hview, Vote.propose.inj (Option.some.inj hvote')⟩
      | prepare | commit | roundChange => cases hvote'
    · obtain ⟨m', hm', hview, hvote'⟩ := mem_votesAt.mp hback
      cases m' with
      | prepare m' => exact Or.inr ⟨m', hm', hview, Vote.prepare.inj (Option.some.inj hvote')⟩
      | proposal | commit | roundChange => cases hvote'
  not_both p m hp hm heq := by
    have hpropose : Vote.propose p.proposedBlockDigest ∈ votesAt log m.view :=
      mem_votesAt.mpr ⟨.proposal p, hp, heq, rfl⟩
    have hprepare : Vote.prepare m.proposedBlockDigest ∈ votesAt log m.view :=
      mem_votesAt.mpr ⟨.prepare m, hm, rfl, rfl⟩
    have hseq := h.votes m.view
    generalize votesAt log m.view = votes at hpropose hprepare hseq
    cases hseq <;> simp_all
  one_round_change v :=
    countP_le_one_of_pairwise h.before (fun _ _ => not_before_of_isRoundChangeAt)
  closed_rounds := by
    refine h.before.imp fun {a b} hab rc ha => ?_
    subst ha
    exact ⟨fun m hb => by subst hb; exact hab, fun m hb => by subst hb; exact hab⟩

/-- **No self-equivocation**: no run of a node, with any messages received and any interleaving
of its tasks, contradicts itself. -/
theorem noEquivocation_of_reachable {cfg : Config} {height : UInt64} {n : Node}
    (h : Reachable (Node.step cfg) (Node.init cfg height) n) {run : Run} (hrun : run ∈ n.runs) :
    NoEquivocation run.log := by
  have hinv := Node.inv_of_reachable h
  exact (hinv.logOk hrun).noEquivocation
    (fun w hw => hinv.actions _ (Node.mem_history hrun hw))

/-- One of four validators that prepares, commits and goes on to a second round, where it does so
again. -/
theorem noEquivocation_four : NoEquivocation fourRun.log :=
  noEquivocation_of_reachable fourNode_reachable fourRun_mem

end Tonic
