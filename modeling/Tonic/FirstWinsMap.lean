/-
# Maps whose entries are inserted only where vacant

A small library about finite maps that are filled through a vacant entry (the
first value wins) and are otherwise only filtered, rewritten in place or emptied.
It names nothing of any program: keys and values are arbitrary types.

A map carries the fact that no key occurs twice, so a map with two values for one
key cannot be built.  Every removal or rewriting of entries is one operation,
`filterMapVal`; a lemma about it serves all of them.
-/
import Mathlib

/-- A finite map: its entries, no key twice. -/
structure FirstWinsMap (K V : Type*) where
  entries : List (K × V)
  nodup_keys : (entries.map Prod.fst).Nodup

namespace FirstWinsMap

variable {K V : Type*}

/-- The map without entries. -/
def empty : FirstWinsMap K V := ⟨[], List.nodup_nil⟩

/-- `k` is stored with value `v`. -/
def Stores (m : FirstWinsMap K V) (k : K) (v : V) : Prop := (k, v) ∈ m.entries

theorem not_stores_empty (k : K) (v : V) : ¬ (empty : FirstWinsMap K V).Stores k v :=
  List.not_mem_nil

/-- A key has one value. -/
theorem Stores.unique {m : FirstWinsMap K V} {k : K} {v w : V} (hv : m.Stores k v)
    (hw : m.Stores k w) : v = w := by
  have hinj := List.inj_on_of_nodup_map m.nodup_keys hv hw rfl
  exact (Prod.mk.inj hinj).2

section Lookup

variable [DecidableEq K]

/-- The value stored under a key. -/
def get? (m : FirstWinsMap K V) (k : K) : Option V :=
  (m.entries.find? (fun e => decide (e.1 = k))).map Prod.snd

theorem get?_eq_some_iff {m : FirstWinsMap K V} {k : K} {v : V} :
    m.get? k = some v ↔ m.Stores k v := by
  constructor
  · intro h
    obtain ⟨e, he, hev⟩ := Option.map_eq_some_iff.mp h
    have hk : e.1 = k := by simpa using List.find?_some he
    have hmem := List.mem_of_find?_eq_some he
    rw [Stores, ← hk, ← hev]
    exact hmem
  · intro h
    cases hf : m.entries.find? (fun e => decide (e.1 = k)) with
    | none =>
      have := List.find?_eq_none.mp hf _ h
      simp at this
    | some e =>
      have hk : e.1 = k := by simpa using List.find?_some hf
      have hst : m.Stores k e.2 := by
        rw [Stores, ← hk]
        exact List.mem_of_find?_eq_some hf
      rw [get?, hf, Option.map_some, hst.unique h]

theorem get?_eq_none_iff {m : FirstWinsMap K V} {k : K} :
    m.get? k = none ↔ ∀ v, ¬ m.Stores k v := by
  rw [← not_iff_not, ← ne_eq, Option.ne_none_iff_exists']
  simp only [get?_eq_some_iff, not_forall, not_not]

@[simp] theorem get?_empty (k : K) : (empty : FirstWinsMap K V).get? k = none := rfl

/-- Insert where the key is vacant; a stored value stays. -/
def insertVacant (m : FirstWinsMap K V) (k : K) (v : V) : FirstWinsMap K V :=
  if h : m.get? k = none then
    ⟨(k, v) :: m.entries, by
      rw [List.map_cons, List.nodup_cons]
      refine ⟨fun hk => ?_, m.nodup_keys⟩
      obtain ⟨⟨k', w⟩, hmem, rfl⟩ := List.mem_map.mp hk
      exact get?_eq_none_iff.mp h w hmem⟩
  else m

theorem stores_insertVacant {m : FirstWinsMap K V} {k k' : K} {v v' : V} :
    (m.insertVacant k v).Stores k' v' ↔
      m.Stores k' v' ∨ (m.get? k = none ∧ k' = k ∧ v' = v) := by
  by_cases h : m.get? k = none
  · rw [insertVacant, dif_pos h, Stores, Stores, List.mem_cons, Prod.mk.injEq]
    constructor
    · rintro (⟨hk, hv⟩ | hold)
      · exact Or.inr ⟨h, hk, hv⟩
      · exact Or.inl hold
    · rintro (hold | ⟨-, hk, hv⟩)
      · exact Or.inr hold
      · exact Or.inl ⟨hk, hv⟩
  · rw [insertVacant, dif_neg h]
    simp [h]

/-- What is stored stays stored. -/
theorem Stores.insertVacant {m : FirstWinsMap K V} {k k' : K} {v v' : V} (h : m.Stores k' v') :
    (m.insertVacant k v).Stores k' v' :=
  stores_insertVacant.mpr (Or.inl h)

theorem get?_insertVacant (m : FirstWinsMap K V) (k k' : K) (v : V) :
    (m.insertVacant k v).get? k' = if m.get? k = none ∧ k' = k then some v else m.get? k' := by
  split
  next h =>
    rw [get?_eq_some_iff, stores_insertVacant]
    exact Or.inr ⟨h.1, h.2, rfl⟩
  next h =>
    apply Option.ext
    intro w
    rw [get?_eq_some_iff, get?_eq_some_iff, stores_insertVacant]
    constructor
    · rintro (hs | ⟨hvac, hk, -⟩)
      · exact hs
      · exact absurd ⟨hvac, hk⟩ h
    · exact Or.inl

/-- An insertion at a vacant key occupies that key and no other. -/
theorem isSome_get?_insertVacant {m : FirstWinsMap K V} {k : K} (h : m.get? k = none) (k' : K)
    (v : V) : ((m.insertVacant k v).get? k').isSome = ((m.get? k').isSome || decide (k' = k)) := by
  rw [get?_insertVacant]
  by_cases hk : k' = k
  · rw [if_pos ⟨h, hk⟩, decide_eq_true hk, Bool.or_true, Option.isSome_some]
  · rw [if_neg fun hand => hk hand.2, decide_eq_false hk, Bool.or_false]

end Lookup

/-! ## Filtering and rewriting -/

/-- Rewrite or drop each value, keys unchanged. -/
def filterMapVal (m : FirstWinsMap K V) (f : K → V → Option V) : FirstWinsMap K V where
  entries := m.entries.filterMap (fun e => (f e.1 e.2).map (Prod.mk e.1))
  nodup_keys := by
    have hsub : ((m.entries.filterMap (fun e => (f e.1 e.2).map (Prod.mk e.1))).map
        Prod.fst).Sublist (m.entries.map Prod.fst) := by
      generalize m.entries = es
      induction es with
      | nil => exact List.Sublist.slnil
      | cons e es ih =>
        cases hf : f e.1 e.2 with
        | none => simpa [List.filterMap_cons, hf] using ih.cons e.1
        | some v => simpa [List.filterMap_cons, hf] using ih
    exact hsub.nodup m.nodup_keys

theorem stores_filterMapVal {m : FirstWinsMap K V} {f : K → V → Option V} {k : K} {v : V} :
    (m.filterMapVal f).Stores k v ↔ ∃ w, m.Stores k w ∧ f k w = some v := by
  simp only [Stores, filterMapVal, List.mem_filterMap, Option.map_eq_some_iff]
  constructor
  · rintro ⟨⟨k', w⟩, hmem, v', hf, heq⟩
    obtain ⟨rfl, rfl⟩ := Prod.mk.inj heq
    exact ⟨w, hmem, hf⟩
  · rintro ⟨w, hmem, hf⟩
    exact ⟨(k, w), hmem, v, hf, rfl⟩

theorem get?_filterMapVal [DecidableEq K] (m : FirstWinsMap K V) (f : K → V → Option V) (k : K) :
    (m.filterMapVal f).get? k = (m.get? k).bind (f k) := by
  apply Option.ext
  intro v
  rw [get?_eq_some_iff, stores_filterMapVal, Option.bind_eq_some_iff]
  simp only [get?_eq_some_iff]

/-- Keep the entries that pass a test. -/
def retain (m : FirstWinsMap K V) (p : K → V → Bool) : FirstWinsMap K V :=
  m.filterMapVal (fun k v => if p k v then some v else none)

theorem stores_retain {m : FirstWinsMap K V} {p : K → V → Bool} {k : K} {v : V} :
    (m.retain p).Stores k v ↔ m.Stores k v ∧ p k v = true := by
  rw [retain, stores_filterMapVal]
  constructor
  · rintro ⟨w, hw, hp⟩
    split at hp
    · cases hp
      exact ⟨hw, ‹_›⟩
    · cases hp
  · rintro ⟨hv, hp⟩
    exact ⟨v, hv, if_pos hp⟩

theorem get?_retain [DecidableEq K] (m : FirstWinsMap K V) (p : K → V → Bool) (k : K) :
    (m.retain p).get? k = (m.get? k).filter (p k) := by
  rw [retain, get?_filterMapVal]
  cases m.get? k with
  | none => rfl
  | some v => simp [Option.filter]

/-! ## Listing values -/

/-- The values of the entries that a selection picks, with what it picks them as. -/
def select {α : Type*} (m : FirstWinsMap K V) (f : K → V → Option α) : List α :=
  m.entries.filterMap (fun e => f e.1 e.2)

theorem mem_select {α : Type*} {m : FirstWinsMap K V} {f : K → V → Option α} {a : α} :
    a ∈ m.select f ↔ ∃ k v, m.Stores k v ∧ f k v = some a := by
  simp only [select, List.mem_filterMap, Stores, Prod.exists]

/-- A selection that gives different keys different images lists nothing twice. -/
theorem nodup_select {α : Type*} {m : FirstWinsMap K V} {f : K → V → Option α}
    (hinj : ∀ k v k' v' a, f k v = some a → f k' v' = some a → k = k') :
    (m.select f).Nodup := by
  have hkeys := m.nodup_keys
  rw [select]
  generalize m.entries = es at hkeys
  induction es with
  | nil => exact List.nodup_nil
  | cons e es ih =>
    rw [List.map_cons, List.nodup_cons] at hkeys
    cases hf : f e.1 e.2 with
    | none => simpa [List.filterMap_cons, hf] using ih hkeys.2
    | some a =>
      rw [List.filterMap_cons, hf]
      refine List.nodup_cons.mpr ⟨fun hmem => ?_, ih hkeys.2⟩
      obtain ⟨e', he', hf'⟩ := List.mem_filterMap.mp hmem
      have hk := hinj _ _ _ _ _ hf hf'
      exact hkeys.1 (List.mem_map.mpr ⟨e', he', hk.symm⟩)

end FirstWinsMap
