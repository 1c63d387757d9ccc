/-
# Queues of bounded length

A small library about first-in first-out queues that hold so many items at most.  An item
for a full queue has to wait, or is dropped.  Against the list of all items that were
offered, a queue that drops delivers a sublist, in order and nothing twice; one that is
never offered an item while it is full delivers them all.  It names nothing of any program.
-/
import Mathlib

/-- A queue of at most `capacity` items, the oldest one first. -/
structure BoundedQueue (α : Type*) (capacity : ℕ) where
  items : List α
  length_le : items.length ≤ capacity

namespace BoundedQueue

variable {α : Type*} {capacity : ℕ} {q q' : BoundedQueue α capacity} {a : α}
  {offered taken : List α}

def empty : BoundedQueue α capacity where
  items := []
  length_le := Nat.zero_le _

/-- Adds an item; `none` if the queue is full. -/
def push (q : BoundedQueue α capacity) (a : α) : Option (BoundedQueue α capacity) :=
  if h : q.items.length < capacity then
    some { items := q.items ++ [a], length_le := by rw [List.length_append]; exact h }
  else none

/-- Adds an item, or drops it if the queue is full. -/
def offer (q : BoundedQueue α capacity) (a : α) : BoundedQueue α capacity := (q.push a).getD q

/-- Takes the oldest item. -/
def pop (q : BoundedQueue α capacity) : Option (α × BoundedQueue α capacity) :=
  match h : q.items with
  | [] => none
  | a :: items =>
    some (a, {
      items
      length_le := by
        have hle := q.length_le
        rw [h, List.length_cons] at hle
        omega })

/-- There is room for one more item. -/
def HasRoom (q : BoundedQueue α capacity) : Prop := q.items.length < capacity

instance (q : BoundedQueue α capacity) : Decidable q.HasRoom := inferInstanceAs (Decidable (_ < _))

theorem push_eq_some_iff : q.push a = some q' ↔ q.HasRoom ∧ q'.items = q.items ++ [a] := by
  unfold push
  constructor
  · intro h
    split at h
    next hroom =>
      cases h
      exact ⟨hroom, rfl⟩
    next => cases h
  · rintro ⟨hroom, hitems⟩
    obtain ⟨items, hle⟩ := q'
    cases hitems
    exact dif_pos hroom

theorem items_offer_of_room (h : q.HasRoom) : (q.offer a).items = q.items ++ [a] := by
  have hlt : q.items.length < capacity := h
  rw [offer, push, dif_pos hlt]
  rfl

theorem offer_of_full (h : ¬ q.HasRoom) : q.offer a = q := by
  have hfull : ¬ q.items.length < capacity := h
  rw [offer, push, dif_neg hfull]
  rfl

theorem mem_offer {b : α} (h : b ∈ (q.offer a).items) : b ∈ q.items ∨ b = a := by
  by_cases hroom : q.HasRoom
  · rw [items_offer_of_room hroom, List.mem_append, List.mem_singleton] at h
    exact h
  · rw [offer_of_full hroom] at h
    exact Or.inl h

theorem pop_eq_some_iff : q.pop = some (a, q') ↔ q.items = a :: q'.items := by
  unfold pop
  constructor
  · intro h
    split at h
    next => cases h
    next hitems =>
      cases h
      exact hitems
  · intro hitems
    split
    next hnil =>
      rw [hnil] at hitems
      cases hitems
    next b items hcons =>
      obtain ⟨items', hle⟩ := q'
      rw [hcons] at hitems
      cases hitems
      rfl

theorem pop_eq_none_iff : q.pop = none ↔ q.items = [] := by
  unfold pop
  split
  next h => simp [h]
  next h => simp [h]

/-! ## What was offered and what was taken -/

/-- What was taken and what waits, against what was offered: in order, and nothing twice. -/
def Carries (q : BoundedQueue α capacity) (offered taken : List α) : Prop :=
  (taken ++ q.items).Sublist offered

/-- Nothing that was offered is missing. -/
def CarriesAll (q : BoundedQueue α capacity) (offered taken : List α) : Prop :=
  taken ++ q.items = offered

theorem carriesAll_empty : (empty : BoundedQueue α capacity).CarriesAll [] [] := rfl

theorem CarriesAll.carries (h : q.CarriesAll offered taken) : q.Carries offered taken := by
  rw [Carries, show taken ++ q.items = offered from h]

theorem Carries.offer (h : q.Carries offered taken) (a : α) :
    (q.offer a).Carries (offered ++ [a]) taken := by
  by_cases hroom : q.HasRoom
  · rw [Carries, items_offer_of_room hroom, ← List.append_assoc]
    exact List.Sublist.append h (List.Sublist.refl _)
  · rw [offer_of_full hroom]
    exact List.Sublist.trans h (List.sublist_append_left _ _)

theorem Carries.pop (h : q.Carries offered taken) (hpop : q.pop = some (a, q')) :
    q'.Carries offered (taken ++ [a]) := by
  rw [Carries, pop_eq_some_iff.mp hpop] at h
  rw [Carries, List.append_assoc]
  exact h

/-- What may happen to a queue: nothing, an item is offered, or the oldest item is taken. -/
inductive Moves (q : BoundedQueue α capacity) (offered taken : List α) :
    BoundedQueue α capacity → List α → List α → Prop where
  | idle : Moves q offered taken q offered taken
  | offer (a : α) : Moves q offered taken (q.offer a) (offered ++ [a]) taken
  | pop {a : α} {q' : BoundedQueue α capacity} (h : q.pop = some (a, q')) :
    Moves q offered taken q' offered (taken ++ [a])

theorem Carries.moves {offered' taken' : List α} (h : q.Carries offered taken)
    (hmoves : q.Moves offered taken q' offered' taken') : q'.Carries offered' taken' := by
  cases hmoves with
  | idle => exact h
  | offer a => exact h.offer a
  | pop hpop => exact h.pop hpop

theorem CarriesAll.offer (h : q.CarriesAll offered taken) (hroom : q.HasRoom) :
    (q.offer a).CarriesAll (offered ++ [a]) taken := by
  rw [CarriesAll, items_offer_of_room hroom, ← List.append_assoc,
    show taken ++ q.items = offered from h]

theorem CarriesAll.push (h : q.CarriesAll offered taken) (hpush : q.push a = some q') :
    q'.CarriesAll (offered ++ [a]) taken := by
  rw [CarriesAll, (push_eq_some_iff.mp hpush).2, ← List.append_assoc,
    show taken ++ q.items = offered from h]

theorem CarriesAll.pop (h : q.CarriesAll offered taken) (hpop : q.pop = some (a, q')) :
    q'.CarriesAll offered (taken ++ [a]) := by
  rw [CarriesAll, pop_eq_some_iff.mp hpop] at h
  rw [CarriesAll, List.append_assoc]
  exact h

/-- If only a queue with room is offered an item, none is missing. -/
theorem CarriesAll.moves {offered' taken' : List α} (h : q.CarriesAll offered taken)
    (hmoves : q.Moves offered taken q' offered' taken') (hroom : offered' ≠ offered → q.HasRoom) :
    q'.CarriesAll offered' taken' := by
  cases hmoves with
  | idle => exact h
  | offer a => exact h.offer (hroom (by simp))
  | pop hpop => exact h.pop hpop

end BoundedQueue
