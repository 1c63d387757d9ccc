/-
# The log of a run

What a run has done so far, and what a sound log looks like: rounds are entered in
increasing order, the votes of a view are at most one proposal or prepare followed by
at most one commit for its digest, round changes go for increasing rounds, and no vote
for a lower round follows one.  Logs grow at the end, one action at a time.
-/
import Tonic.Ibft

namespace Tonic

/-! ## Actions and their views -/

/-- The view an action is about, for actions that have one. -/
def Action.view? : Action → Option View
  | .entered view => some view
  | .broadcast m => some m.view
  | .verifiedBlock _ _ => none
  | .finalized _ _ => none

def Action.height : Action → UInt64
  | .entered view => view.height
  | .broadcast m => m.view.height
  | .verifiedBlock height _ => height
  | .finalized height _ => height

/-- A broadcast that counts for a digest. -/
inductive Vote where
  | propose (digest : Digest)
  | prepare (digest : Digest)
  | commit (digest : Digest)
  deriving DecidableEq

namespace Vote

def isPropose : Vote → Bool
  | .propose _ => true
  | _ => false

def isPrepare : Vote → Bool
  | .prepare _ => true
  | _ => false

def isCommit : Vote → Bool
  | .commit _ => true
  | _ => false

def digest : Vote → Digest
  | .propose d => d
  | .prepare d => d
  | .commit d => d

end Vote

def IBFTMessage.vote? : IBFTMessage → Option Vote
  | .proposal p => some (.propose p.proposedBlockDigest)
  | .prepare m => some (.prepare m.proposedBlockDigest)
  | .commit m => some (.commit m.proposedBlockDigest)
  | .roundChange _ => none

/-- The vote an action casts in a view. -/
def Action.voteAt (view : View) : Action → Option Vote
  | .broadcast m => if m.view = view then m.vote? else none
  | _ => none

/-- The votes of a log in a view, in order. -/
def votesAt (log : List Action) (view : View) : List Vote := log.filterMap (Action.voteAt view)

@[simp] theorem votesAt_nil (view : View) : votesAt [] view = [] := rfl

@[simp] theorem votesAt_append (log log' : List Action) (view : View) :
    votesAt (log ++ log') view = votesAt log view ++ votesAt log' view :=
  List.filterMap_append

@[simp] theorem votesAt_entered (v w : View) : votesAt [.entered v] w = [] := rfl

@[simp] theorem votesAt_finalized (height : UInt64) (b : FinalizedBlock) (w : View) :
    votesAt [.finalized height b] w = [] := rfl

theorem votesAt_broadcast (m : IBFTMessage) (w : View) :
    votesAt [.broadcast m] w = if m.view = w then m.vote?.toList else [] := by
  unfold votesAt Action.voteAt
  by_cases h : m.view = w
  · simp only [h, if_true, List.filterMap_cons, List.filterMap_nil]
    cases m.vote? <;> rfl
  · simp [h]

theorem mem_votesAt {log : List Action} {view : View} {vote : Vote} :
    vote ∈ votesAt log view ↔
      ∃ m, Action.broadcast m ∈ log ∧ m.view = view ∧ m.vote? = some vote := by
  rw [votesAt, List.mem_filterMap]
  constructor
  · rintro ⟨a, ha, hvote⟩
    cases a with
    | broadcast m =>
      change (if m.view = view then m.vote? else none) = some vote at hvote
      split at hvote
      next hview => exact ⟨m, ha, hview, hvote⟩
      next => cases hvote
    | entered | verifiedBlock | finalized => cases hvote
  · rintro ⟨m, hm, hview, hvote⟩
    exact ⟨_, hm, by rw [Action.voteAt, if_pos hview, hvote]⟩

/-! ## Sound logs -/

/-- The votes of a view: nothing, one proposal or prepare, or one followed by a commit for its
digest. -/
inductive VoteSequence : List Vote → Prop where
  | none : VoteSequence []
  | proposed (d : Digest) : VoteSequence [.propose d]
  | prepared (d : Digest) : VoteSequence [.prepare d]
  | proposedCommitted (d : Digest) : VoteSequence [.propose d, .commit d]
  | preparedCommitted (d : Digest) : VoteSequence [.prepare d, .commit d]

/-- All votes of a view are for one digest. -/
theorem VoteSequence.digest_unique {votes : List Vote} (h : VoteSequence votes) {v w : Vote}
    (hv : v ∈ votes) (hw : w ∈ votes) : v.digest = w.digest := by
  have hall : ∃ d, ∀ vote ∈ votes, vote.digest = d := by
    cases h with
    | none => exact ⟨v.digest, fun vote hvote => by cases hvote⟩
    | proposed d | prepared d | proposedCommitted d | preparedCommitted d =>
      exact ⟨d, by simp [Vote.digest]⟩
  obtain ⟨d, hd⟩ := hall
  rw [hd v hv, hd w hw]

/-- What the order of two actions in a log says: later rounds are higher, and no vote is for a
round below that of an earlier round change. -/
def Before : Action → Action → Prop
  | .entered v, .entered w => v.round < w.round
  | .broadcast (.roundChange m), .broadcast (.roundChange m') => m.view.round < m'.view.round
  | .broadcast (.roundChange m), .broadcast m' => m.view.round ≤ m'.view.round
  | _, _ => True

structure LogOk (height : UInt64) (log : List Action) : Prop where
  height_eq : ∀ a ∈ log, a.height = height
  before : log.Pairwise Before
  votes : ∀ v, VoteSequence (votesAt log v)

/-- No action of the log is about a round above the given one. -/
def Below (log : List Action) (round : UInt8) : Prop :=
  ∀ a ∈ log, ∀ v, a.view? = some v → v.round ≤ round

theorem Below.mono {log : List Action} {r r' : UInt8} (h : Below log r) (hle : r ≤ r') :
    Below log r' :=
  fun a ha v hv => UInt8.le_trans (h a ha v hv) hle

theorem Below.append {log log' : List Action} {r : UInt8} (h : Below log r) (h' : Below log' r) :
    Below (log ++ log') r := by
  intro a ha v hv
  rcases List.mem_append.mp ha with ha | ha
  · exact h a ha v hv
  · exact h' a ha v hv

/-- A view above the rounds of a log has no votes in it. -/
theorem Below.votesAt_eq_nil {log : List Action} {r : UInt8} (h : Below log r) {v : View}
    (hv : r < v.round) : votesAt log v = [] := by
  rw [List.eq_nil_iff_forall_not_mem]
  intro vote hmem
  obtain ⟨m, hm, rfl, -⟩ := mem_votesAt.mp hmem
  exact absurd (h _ hm m.view rfl) (UInt8.not_le.mpr hv)

namespace LogOk

variable {height : UInt64} {log : List Action}

theorem nil (height : UInt64) : LogOk height [] :=
  ⟨fun _ h => absurd h List.not_mem_nil, List.Pairwise.nil, fun _ => .none⟩

/-- A log grows by one action. -/
theorem concat (h : LogOk height log) {a : Action} (hheight : a.height = height)
    (hbefore : ∀ b ∈ log, Before b a)
    (hvotes : ∀ v, VoteSequence (votesAt log v ++ votesAt [a] v)) :
    LogOk height (log ++ [a]) where
  height_eq b hb := by
    rcases List.mem_append.mp hb with hb | hb
    · exact h.height_eq b hb
    · rw [List.mem_singleton.mp hb]
      exact hheight
  before := by
    rw [List.pairwise_append]
    refine ⟨h.before, List.pairwise_singleton _ _, fun b hb c hc => ?_⟩
    rw [List.mem_singleton.mp hc]
    exact hbefore b hb
  votes v := by
    rw [votesAt_append]
    exact hvotes v

theorem concat_entered (h : LogOk height log) {v : View} (hheight : v.height = height)
    (hround : ∀ w, Action.entered w ∈ log → w.round < v.round) :
    LogOk height (log ++ [.entered v]) := by
  refine h.concat hheight (fun b hb => ?_) (fun w => ?_)
  · cases b with
    | entered w => exact hround w hb
    | broadcast m => cases m <;> trivial
    | verifiedBlock | finalized => trivial
  · rw [votesAt_entered, List.append_nil]
    exact h.votes w

theorem concat_verifiedBlock (h : LogOk height log) (b : RawBlock) :
    LogOk height (log ++ [.verifiedBlock height b]) := by
  refine h.concat rfl (fun c _ => ?_) (fun w => ?_)
  · cases c with
    | broadcast m => cases m <;> trivial
    | entered | verifiedBlock | finalized => trivial
  · exact (List.append_nil (votesAt log w)).symm ▸ h.votes w

theorem concat_finalized (h : LogOk height log) (b : FinalizedBlock) :
    LogOk height (log ++ [.finalized height b]) := by
  refine h.concat rfl (fun c _ => ?_) (fun w => ?_)
  · cases c with
    | broadcast m => cases m <;> trivial
    | entered | verifiedBlock | finalized => trivial
  · rw [votesAt_finalized, List.append_nil]
    exact h.votes w

/-- A vote in the highest round so far. -/
theorem concat_vote (h : LogOk height log) {m : IBFTMessage} {vote : Vote}
    (hvote : m.vote? = some vote) (hheight : m.view.height = height)
    (hbelow : Below log m.view.round)
    (hvotes : VoteSequence (votesAt log m.view ++ [vote])) :
    LogOk height (log ++ [.broadcast m]) := by
  refine h.concat hheight (fun b hb => ?_) (fun w => ?_)
  · cases b with
    | broadcast m' =>
      have hle : m'.view.round ≤ m.view.round := hbelow _ hb m'.view rfl
      cases m' with
      | roundChange m' =>
        cases m with
        | roundChange m => cases hvote
        | proposal | prepare | commit => exact hle
      | proposal | prepare | commit => trivial
    | entered | verifiedBlock | finalized => trivial
  · rw [votesAt_broadcast]
    split
    next hw =>
      subst hw
      rw [hvote]
      exact hvotes
    next => exact (List.append_nil (votesAt log w)).symm ▸ h.votes w

/-- A round change for a round above those so far. -/
theorem concat_roundChange (h : LogOk height log) {m : RoundChangeMessageSigned} {r : UInt8}
    (hheight : m.view.height = height) (hbelow : Below log r) (hround : r < m.view.round) :
    LogOk height (log ++ [.broadcast (.roundChange m)]) := by
  refine h.concat hheight (fun b hb => ?_) (fun w => ?_)
  · cases b with
    | broadcast m' =>
      cases m' with
      | roundChange m' => exact UInt8.lt_of_le_of_lt (hbelow _ hb m'.view rfl) hround
      | proposal | prepare | commit => trivial
    | entered | verifiedBlock | finalized => trivial
  · have hnil : votesAt [.broadcast (.roundChange m)] w = [] := by
      rw [votesAt_broadcast]
      split <;> rfl
    rw [hnil, List.append_nil]
    exact h.votes w

end LogOk

end Tonic
