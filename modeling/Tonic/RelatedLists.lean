/-
# Lists related item by item

A small library about two lists of the same length whose items are related one by
one, as the inputs and the outputs of a loop are.  It names nothing of any program.
A loop that may fail succeeds exactly where its calls do; what is in one list has a
partner in the other; a walk over a sorted list that skips a front part is a filter;
what holds of every item and the items before it is kept when a list grows.
-/
import Mathlib

namespace RelatedLists

/-! ## Partners -/

/-- Every element on the right of two related lists has its partner on the left. -/
theorem exists_mem_left_of_forall₂ {α β : Type*} {R : α → β → Prop} {xs : List α} {ys : List β}
    (h : List.Forall₂ R xs ys) {y : β} (hy : y ∈ ys) : ∃ x ∈ xs, R x y := by
  induction h with
  | nil => cases hy
  | cons hR _ ih =>
    rcases List.mem_cons.mp hy with rfl | hy
    · exact ⟨_, List.mem_cons_self, hR⟩
    · obtain ⟨x, hx, hR⟩ := ih hy
      exact ⟨x, List.mem_cons_of_mem _ hx, hR⟩

/-- Every element on the left has its partner on the right. -/
theorem exists_mem_right_of_forall₂ {α β : Type*} {R : α → β → Prop} {xs : List α} {ys : List β}
    (h : List.Forall₂ R xs ys) {x : α} (hx : x ∈ xs) : ∃ y ∈ ys, R x y :=
  exists_mem_left_of_forall₂ h.flip hx

theorem exists_forall₂ {α β : Type*} {R : α → β → Prop} {l : List α} (h : ∀ a ∈ l, ∃ b, R a b) :
    ∃ bs, List.Forall₂ R l bs := by
  induction l with
  | nil => exact ⟨[], List.Forall₂.nil⟩
  | cons a l ih =>
    obtain ⟨b, hb⟩ := h a List.mem_cons_self
    obtain ⟨bs, hbs⟩ := ih fun a' ha' => h a' (List.mem_cons_of_mem _ ha')
    exact ⟨b :: bs, List.Forall₂.cons hb hbs⟩

/-- Where the elements on the right all differ, a value of each partner on the left is a function of
them. -/
theorem exists_partner_function {α β γ : Type*} [Inhabited γ] {R : α → β → Prop} (f : α → γ)
    {xs : List α} {ys : List β} (h : List.Forall₂ R xs ys) (hnodup : ys.Nodup) :
    ∃ g : β → γ, (∀ y ∈ ys, ∃ x ∈ xs, R x y ∧ f x = g y) ∧
      ∀ x ∈ xs, ∃ y ∈ ys, R x y ∧ f x = g y := by
  classical
  induction h with
  | nil => exact ⟨default, by simp, by simp⟩
  | @cons x y xs ys hR _ ih =>
    obtain ⟨hnew, hnodup⟩ := List.nodup_cons.mp hnodup
    obtain ⟨g, hleft, hright⟩ := ih hnodup
    have hsame : ∀ y' ∈ ys, Function.update g y (f x) y' = g y' := by
      intro y' hy'
      refine Function.update_of_ne ?_ _ _
      rintro rfl
      exact hnew hy'
    have hhead : R x y ∧ f x = Function.update g y (f x) y :=
      ⟨hR, (Function.update_self y (f x) g).symm⟩
    refine ⟨Function.update g y (f x), fun y' hy' => ?_, fun x' hx' => ?_⟩
    · rcases List.mem_cons.mp hy' with rfl | hy'
      · exact ⟨x, List.mem_cons_self, hhead⟩
      · obtain ⟨x', hx', hR', hf⟩ := hleft y' hy'
        exact ⟨x', List.mem_cons_of_mem _ hx', hR', hf.trans (hsame y' hy').symm⟩
    · rcases List.mem_cons.mp hx' with rfl | hx'
      · exact ⟨y, List.mem_cons_self, hhead⟩
      · obtain ⟨y', hy', hR', hf⟩ := hright x' hx'
        exact ⟨y', List.mem_cons_of_mem _ hy', hR', hf.trans (hsame y' hy').symm⟩

/-! ## Loops that may fail -/

/-- A loop succeeds with the results of its calls. -/
theorem mapM_eq_some_iff_forall₂ {α β : Type*} {f : α → Option β} {l : List α} {bs : List β} :
    l.mapM f = some bs ↔ List.Forall₂ (fun a b => f a = some b) l bs := by
  induction l generalizing bs with
  | nil =>
    rw [List.mapM_nil, List.forall₂_nil_left_iff]
    constructor
    · intro h
      exact (Option.some.inj h).symm
    · rintro rfl
      rfl
  | cons a l ih =>
    rw [List.mapM_cons, List.forall₂_cons_left_iff]
    constructor
    · intro h
      obtain ⟨b, hb, hrest⟩ := Option.bind_eq_some_iff.mp h
      obtain ⟨bs', hbs, hsome⟩ := Option.bind_eq_some_iff.mp hrest
      exact ⟨b, bs', hb, ih.mp hbs, (Option.some.inj hsome).symm⟩
    · rintro ⟨b, bs', hb, hbs, rfl⟩
      rw [hb, ih.mpr hbs]
      rfl

/-- A loop whose calls each succeed under a condition. -/
theorem mapM_eq_some_iff {α β : Type*} {f : α → Option β} {P : α → Prop} {g : α → β} {l : List α}
    (hf : ∀ a b, f a = some b ↔ P a ∧ b = g a) {bs : List β} :
    l.mapM f = some bs ↔ (∀ a ∈ l, P a) ∧ bs = l.map g := by
  induction l generalizing bs with
  | nil =>
    rw [List.mapM_nil]
    constructor
    · intro h
      exact ⟨fun a ha => absurd ha List.not_mem_nil, (Option.some.inj h).symm⟩
    · rintro ⟨-, rfl⟩
      rfl
  | cons a l ih =>
    rw [List.mapM_cons, List.forall_mem_cons, List.map_cons]
    constructor
    · intro h
      obtain ⟨b, hb, hrest⟩ := Option.bind_eq_some_iff.mp h
      obtain ⟨bs', hbs, hsome⟩ := Option.bind_eq_some_iff.mp hrest
      obtain ⟨hP, rfl⟩ := (hf a b).mp hb
      obtain ⟨hPs, rfl⟩ := ih.mp hbs
      exact ⟨⟨hP, hPs⟩, (Option.some.inj hsome).symm⟩
    · rintro ⟨⟨hP, hPs⟩, rfl⟩
      rw [(hf a _).mpr ⟨hP, rfl⟩, ih.mpr ⟨hPs, rfl⟩]
      rfl

/-- Two loops one after the other are one loop, since a failure in either fails both. -/
theorem mapM_bind_mapM {α β γ δ : Type*} (f : α → Option β) (g : β → γ) (h : γ → Option δ)
    (l : List α) :
    ((l.mapM f).bind fun bs => (bs.map g).mapM h)
      = l.mapM fun a => (f a).bind fun b => h (g b) := by
  induction l with
  | nil => rfl
  | cons a l ih =>
    rw [List.mapM_cons, List.mapM_cons, ← ih]
    cases f a with
    | none => rfl
    | some b =>
      cases l.mapM f with
      | none =>
        cases hb : h (g b) with
        | none => simp [hb]
        | some d => simp [hb]
      | some bs =>
        show ((b :: bs).map g).mapM h = _
        rw [List.map_cons, List.mapM_cons]
        rfl

/-! ## Skipping the front of a list -/

/-- Where items to skip come first, what is skipped at the front is all there is to skip. -/
theorem dropWhile_eq_filter_of_pairwise {α : Type*} {p : α → Bool} {l : List α}
    (h : l.Pairwise fun a b => p b = true → p a = true) :
    l.dropWhile p = l.filter (fun a => !p a) := by
  induction l with
  | nil => rfl
  | cons a l ih =>
    rw [List.pairwise_cons] at h
    rw [List.dropWhile_cons, List.filter_cons]
    by_cases ha : p a = true
    · rw [if_pos ha, ih h.2, ha]
      rfl
    · have hall : l.filter (fun b => !p b) = l := by
        rw [List.filter_eq_self]
        intro b hb
        simpa using fun hpb => ha (h.1 b hb hpb)
      rw [if_neg ha, hall]
      simp [ha]

/-! ## Items and what came before them -/

/-- Every item has the property together with the list of the items before it. -/
def EachAfter {α : Type*} (P : List α → α → Prop) (xs : List α) : Prop :=
  ∀ before x after, xs = before ++ x :: after → P before x

theorem eachAfter_nil {α : Type*} {P : List α → α → Prop} : EachAfter P [] := by
  intro before x after h
  exact absurd h.symm (by simp)

/-- When a list grows, only the new item is to be checked. -/
theorem eachAfter_concat {α : Type*} {P : List α → α → Prop} {xs : List α} {x : α} :
    EachAfter P (xs ++ [x]) ↔ EachAfter P xs ∧ P xs x := by
  constructor
  · intro h
    exact ⟨fun before y after heq => h before y (after ++ [x]) (by rw [heq]; simp), h xs x [] rfl⟩
  · rintro ⟨hxs, hx⟩ before y after heq
    rcases List.eq_nil_or_concat after with rfl | ⟨front, last, rfl⟩
    · obtain ⟨rfl, hy⟩ := List.append_inj' heq rfl
      cases hy
      exact hx
    · rw [List.concat_eq_append, ← List.cons_append, ← List.append_assoc] at heq
      obtain ⟨hfront, -⟩ := List.append_inj' heq rfl
      exact hxs before y front hfront

end RelatedLists
