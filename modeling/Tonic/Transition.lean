/-
# Transition systems with partial steps

A small library about systems given by a step function that may refuse an event.
It names nothing of any program: states and events are arbitrary types.  A run is
the left fold of the step over a list of events; a property that the initial state
has and every step keeps holds after every run.
-/
import Mathlib

namespace Transition

variable {σ ε : Type*} {step : σ → ε → Option σ}

/-- The state after a list of events, if none of them is refused. -/
def exec (step : σ → ε → Option σ) (s : σ) (events : List ε) : Option σ :=
  events.foldlM step s

@[simp] theorem exec_nil (s : σ) : exec step s [] = some s := rfl

theorem exec_cons {s t : σ} {e : ε} {es : List ε} :
    exec step s (e :: es) = some t ↔ ∃ u, step s e = some u ∧ exec step u es = some t := by
  rw [exec, List.foldlM_cons]
  exact Option.bind_eq_some_iff

theorem exec_append {s t : σ} {es fs : List ε} :
    exec step s (es ++ fs) = some t ↔ ∃ u, exec step s es = some u ∧ exec step u fs = some t := by
  rw [exec, List.foldlM_append]
  exact Option.bind_eq_some_iff

theorem exec_concat {s t : σ} {es : List ε} {e : ε} :
    exec step s (es ++ [e]) = some t ↔ ∃ u, exec step s es = some u ∧ step u e = some t := by
  rw [exec_append]
  simp [exec_cons]

/-- The events of a list one by one. -/
theorem exec_take_succ {s t : σ} {es : List ε} {i : ℕ} (hi : i < es.length)
    (h : exec step s (es.take (i + 1)) = some t) :
    ∃ u, exec step s (es.take i) = some u ∧ step u es[i] = some t := by
  rw [List.take_succ_eq_append_getElem hi] at h
  exact exec_concat.mp h

/-- **The simulation rule**: where every step of one system is matched by a step of another that
keeps a relation between their states, so is every run. -/
theorem exec_simulates {τ : Type*} {step' : τ → ε → Option τ} {R : σ → τ → Prop}
    (hstep : ∀ s t e t', R s t → step' t e = some t' → ∃ s', step s e = some s' ∧ R s' t')
    {s : σ} {t t' : τ} {es : List ε} (hR : R s t) (h : exec step' t es = some t') :
    ∃ s', exec step s es = some s' ∧ R s' t' := by
  induction es generalizing s t with
  | nil =>
    cases h
    exact ⟨s, rfl, hR⟩
  | cons e es ih =>
    obtain ⟨u, hu, hrest⟩ := exec_cons.mp h
    obtain ⟨v, hv, hRv⟩ := hstep s t e u hR hu
    obtain ⟨s', hs', hR'⟩ := ih hRv hrest
    exact ⟨s', exec_cons.mpr ⟨v, hv, hs'⟩, hR'⟩

/-- `t` is reached from `s` by some list of events. -/
def Reachable (step : σ → ε → Option σ) (s t : σ) : Prop :=
  ∃ es, exec step s es = some t

theorem Reachable.refl (s : σ) : Reachable step s s := ⟨[], rfl⟩

/-- A list of events that is not refused ends in a reachable state. -/
theorem reachable_get {s : σ} {es : List ε} (h : (exec step s es).isSome = true) :
    Reachable step s ((exec step s es).get h) :=
  ⟨es, (Option.some_get h).symm⟩

theorem Reachable.tail {s t u : σ} {e : ε} (h : Reachable step s t) (he : step t e = some u) :
    Reachable step s u := by
  obtain ⟨es, hes⟩ := h
  exact ⟨es ++ [e], exec_concat.mpr ⟨t, hes, he⟩⟩

theorem Reachable.exec {s t u : σ} {es : List ε} (h : Reachable step s t)
    (hes : exec step t es = some u) : Reachable step s u := by
  obtain ⟨fs, hfs⟩ := h
  exact ⟨fs ++ es, exec_append.mpr ⟨t, hfs, hes⟩⟩

/-- **The invariant rule over a list of events**: what the first state has and every step with an
event of the list keeps, the last state has. -/
theorem exec_invariant {I : σ → Prop} {es : List ε}
    (hstep : ∀ s e t, e ∈ es → I s → step s e = some t → I t) {s t : σ}
    (hs : I s) (h : exec step s es = some t) : I t := by
  induction es generalizing s with
  | nil =>
    cases h
    exact hs
  | cons e es ih =>
    obtain ⟨u, hu, hrest⟩ := exec_cons.mp h
    exact ih (fun s e t he => hstep s e t (List.mem_cons_of_mem _ he))
      (hstep s e u List.mem_cons_self hs hu) hrest

/-- **The invariant rule**: what the initial state has and every step keeps, every reachable
state has. -/
theorem Reachable.invariant {I : σ → Prop}
    (hstep : ∀ s e t, I s → step s e = some t → I t) {s t : σ}
    (h : Reachable step s t) (hs : I s) : I t := by
  obtain ⟨es, hes⟩ := h
  exact exec_invariant (fun s e t _ => hstep s e t) hs hes

/-- The invariant rule with a second invariant already known of every reachable state. -/
theorem Reachable.invariant_of {Known I : σ → Prop} {s₀ t : σ}
    (hknown : ∀ s, Reachable step s₀ s → Known s)
    (hstep : ∀ s e t, Known s → Known t → I s → step s e = some t → I t)
    (h : Reachable step s₀ t) (hs : I s₀) : I t := by
  let Both : σ → Prop := fun s => Reachable step s₀ s ∧ I s
  have hboth : ∀ s e u, Both s → step s e = some u → Both u := by
    rintro s e u ⟨hreach, hinv⟩ he
    have hreach' := hreach.tail he
    exact ⟨hreach', hstep s e u (hknown s hreach) (hknown u hreach') hinv he⟩
  exact (h.invariant hboth ⟨.refl s₀, hs⟩).2

/-! ## Runs whose steps meet a condition -/

/-- `t` is reached from `s` by steps that all meet the condition on the state and the event. -/
inductive ReachableWithin (step : σ → ε → Option σ) (P : σ → ε → Prop) (s : σ) : σ → Prop
  | refl : ReachableWithin step P s s
  | tail {t u : σ} {e : ε} (h : ReachableWithin step P s t) (hP : P t e)
      (he : step t e = some u) : ReachableWithin step P s u

variable {P Q : σ → ε → Prop}

theorem ReachableWithin.reachable {s t : σ} (h : ReachableWithin step P s t) :
    Reachable step s t := by
  induction h with
  | refl => exact .refl s
  | tail _ _ he ih => exact ih.tail he

theorem ReachableWithin.mono (hPQ : ∀ s e, P s e → Q s e) {s t : σ}
    (h : ReachableWithin step P s t) : ReachableWithin step Q s t := by
  induction h with
  | refl => exact .refl
  | tail _ hP he ih => exact ih.tail (hPQ _ _ hP) he

/-- A list of events that meet the condition in every state. -/
theorem reachableWithin_of_exec {s t : σ} {es : List ε} (hP : ∀ u, ∀ e ∈ es, P u e)
    (h : exec step s es = some t) : ReachableWithin step P s t :=
  exec_invariant (I := ReachableWithin step P s)
    (fun u e _ hmem hu he => hu.tail (hP u e hmem) he) .refl h

/-- **The invariant rule under a condition**: what every step that meets the condition keeps. -/
theorem ReachableWithin.invariant_of {Known I : σ → Prop} {s₀ t : σ}
    (hknown : ∀ s, Reachable step s₀ s → Known s)
    (hstep : ∀ s e t, Known s → Known t → P s e → I s → step s e = some t → I t)
    (h : ReachableWithin step P s₀ t) (hs : I s₀) : I t := by
  induction h with
  | refl => exact hs
  | tail h hP he ih =>
    exact hstep _ _ _ (hknown _ h.reachable) (hknown _ (h.reachable.tail he)) hP ih he

section Checked

variable (P) [∀ s e, Decidable (P s e)]

/-- The step that refuses what does not meet the condition. -/
def checked (step : σ → ε → Option σ) (s : σ) (e : ε) : Option σ :=
  if P s e then step s e else none

variable {P}

theorem checked_eq_some {s t : σ} {e : ε} :
    checked P step s e = some t ↔ P s e ∧ step s e = some t := by
  simp [checked]

theorem Reachable.within {s t : σ} (h : Reachable (checked P step) s t) :
    ReachableWithin step P s t := by
  refine h.invariant (fun u e v hu he => ?_) .refl
  obtain ⟨hP, he⟩ := checked_eq_some.mp he
  exact hu.tail hP he

theorem exec_of_checked {s t : σ} {es : List ε} (h : exec (checked P step) s es = some t) :
    exec step s es = some t := by
  induction es generalizing s with
  | nil => exact h
  | cons e es ih =>
    obtain ⟨u, hu, hrest⟩ := exec_cons.mp h
    exact exec_cons.mpr ⟨u, (checked_eq_some.mp hu).2, ih hrest⟩

/-- A list of events whose steps all meet the condition. -/
theorem reachableWithin_get {s : σ} {es : List ε}
    (hchecked : (exec (checked P step) s es).isSome = true)
    (h : (exec step s es).isSome = true) :
    ReachableWithin step P s ((exec step s es).get h) := by
  obtain ⟨t, ht⟩ := Option.isSome_iff_exists.mp hchecked
  have heq : (exec step s es).get h = t := by simp [exec_of_checked ht]
  rw [heq]
  exact Reachable.within ⟨es, ht⟩

end Checked

end Transition
