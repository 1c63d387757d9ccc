/-
# Systems that come to rest

A small library beside `Transition`.  Some events of a system are its own, the others come
from outside.  Where every own step decreases a measure in a well-founded order, no run of
own steps goes on for ever, and own steps lead from every state to one that has none left.
It names nothing of any program.
-/
import Tonic.Transition

namespace Transition

variable {σ ε : Type*} {step : σ → ε → Option σ} {own own' : ε → Prop} {s t : σ}

/-- No own event is possible. -/
def Settled (step : σ → ε → Option σ) (own : ε → Prop) (s : σ) : Prop :=
  ∀ e, own e → step s e = none

/-- An own event leads from the one state to the other. -/
def OwnStep (step : σ → ε → Option σ) (own : ε → Prop) (s t : σ) : Prop :=
  ∃ e, own e ∧ step s e = some t

/-- No run of own steps from the state goes on for ever. -/
def Ends (step : σ → ε → Option σ) (own : ε → Prop) (s : σ) : Prop :=
  Acc (fun t s => OwnStep step own s t) s

/-- **The measure rule**: the measure needs to decrease on the states of an invariant only. -/
theorem ends_of_measure {α : Type*} [LT α] [WellFoundedLT α] {I : σ → Prop} (μ : σ → α)
    (hkeep : ∀ s e t, I s → own e → step s e = some t → I t)
    (hlt : ∀ s e t, I s → own e → step s e = some t → μ t < μ s) (hs : I s) :
    Ends step own s := by
  -- Induction on the measure of the state.
  have haux : ∀ a : α, ∀ s, I s → μ s = a → Ends step own s := by
    intro a
    induction a using WellFoundedLT.induction with
    | ind a ih =>
      intro s hs ha
      constructor
      rintro t ⟨e, hown, he⟩
      have hdecreases := hlt s e t hs hown he
      rw [ha] at hdecreases
      exact ih (μ t) hdecreases t (hkeep s e t hs hown he) rfl
  exact haux (μ s) s hs rfl

/-- Fewer events end the sooner. -/
theorem Ends.mono (h : Ends step own s) (hsub : ∀ e, own' e → own e) : Ends step own' s := by
  induction h with
  | intro s _ ih =>
    constructor
    rintro t ⟨e, hown, he⟩
    exact ih t ⟨e, hsub e hown, he⟩

/-- There is no infinite sequence of own steps. -/
theorem Ends.not_forever (h : Ends step own s) (states : ℕ → σ) (hzero : states 0 = s) :
    ∃ i, ¬ OwnStep step own (states i) (states (i + 1)) := by
  induction h generalizing states with
  | intro s _ ih =>
    by_contra hall
    simp only [not_exists, not_not] at hall
    have hfirst := hall 0
    rw [hzero] at hfirst
    -- The sequence from its second state on.
    obtain ⟨i, hi⟩ := ih (states 1) hfirst (fun i => states (i + 1)) rfl
    exact hi (hall (i + 1))

/-- **Own steps lead to rest.** -/
theorem Ends.exists_settled (h : Ends step own s) :
    ∃ es t, (∀ e ∈ es, own e) ∧ exec step s es = some t ∧ Settled step own t := by
  induction h with
  | intro s _ ih =>
    by_cases hsettled : Settled step own s
    · exact ⟨[], s, by simp, rfl, hsettled⟩
    · simp only [Settled, not_forall] at hsettled
      obtain ⟨e, hown, he⟩ := hsettled
      obtain ⟨t, ht⟩ := Option.ne_none_iff_exists'.mp he
      obtain ⟨es, u, hes, hexec, hrest⟩ := ih t ⟨e, hown, ht⟩
      refine ⟨e :: es, u, ?_, exec_cons.mpr ⟨t, ht, hexec⟩, hrest⟩
      intro e' hmem
      rcases List.mem_cons.mp hmem with rfl | hmem
      · exact hown
      · exact hes e' hmem

/-! ## Measures of several levels -/

/-- A measure of four levels, the first one counting most. -/
abbrev Levels := ℕ ×ₗ ℕ ×ₗ ℕ ×ₗ ℕ

def levels (a b c d : ℕ) : Levels := toLex (a, toLex (b, toLex (c, d)))

variable {a a' b b' c c' d d' : ℕ}

theorem levels_lt_first (h : a < a') : levels a b c d < levels a' b' c' d' :=
  Prod.Lex.toLex_lt_toLex.mpr (Or.inl h)

theorem levels_lt_second (ha : a = a') (h : b < b') : levels a b c d < levels a' b' c' d' :=
  Prod.Lex.toLex_lt_toLex.mpr (Or.inr ⟨ha, Prod.Lex.toLex_lt_toLex.mpr (Or.inl h)⟩)

theorem levels_lt_third (ha : a = a') (hb : b = b') (h : c < c') :
    levels a b c d < levels a' b' c' d' := by
  subst ha hb
  apply Prod.Lex.toLex_lt_toLex.mpr
  refine Or.inr ⟨rfl, Prod.Lex.toLex_lt_toLex.mpr ?_⟩
  exact Or.inr ⟨rfl, Prod.Lex.toLex_lt_toLex.mpr (Or.inl h)⟩

theorem levels_lt_fourth (ha : a = a') (hb : b = b') (hc : c = c') (h : d < d') :
    levels a b c d < levels a' b' c' d' := by
  subst ha hb hc
  apply Prod.Lex.toLex_lt_toLex.mpr
  refine Or.inr ⟨rfl, Prod.Lex.toLex_lt_toLex.mpr ?_⟩
  exact Or.inr ⟨rfl, Prod.Lex.toLex_lt_toLex.mpr (Or.inr ⟨rfl, h⟩)⟩

end Transition
