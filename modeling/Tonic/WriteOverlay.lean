/-
# Reading through pending writes

A small library about contents that are written key by key, and about pending
changes that are laid over a content without touching it.  It names nothing of any
program: keys and values are arbitrary types, a content and a set of changes are
functions.  Laying changes over a content reads as if the changes had been written,
and writing a list of changes whose keys differ does not depend on their order.
-/
import Mathlib

/-- A single write. -/
inductive Write (V : Type*) where
  | put (value : V)
  | delete
  deriving DecidableEq

namespace WriteOverlay

variable {K V : Type*}

/-- What a key holds after the write. -/
def value : Write V → Option V
  | .put v => some v
  | .delete => none

/-- The content read through pending changes. -/
def overlay (changes : K → Option (Write V)) (content : K → Option V) : K → Option V := fun k =>
  match changes k with
  | some w => value w
  | none => content k

/-- Pending changes under newer ones. -/
def merge (newer older : K → Option (Write V)) : K → Option (Write V) := fun k =>
  (newer k).or (older k)

theorem overlay_some {changes : K → Option (Write V)} {content : K → Option V} {k : K}
    {w : Write V} (h : changes k = some w) : overlay changes content k = value w := by
  rw [overlay, h]

theorem overlay_none {changes : K → Option (Write V)} {content : K → Option V} {k : K}
    (h : changes k = none) : overlay changes content k = content k := by
  rw [overlay, h]

/-- Without changes the content is read. -/
theorem overlay_empty (content : K → Option V) :
    overlay (fun _ => none) content = content := rfl

/-- Merged changes read as the newer ones laid over the result of the older ones. -/
theorem overlay_merge (newer older : K → Option (Write V)) (content : K → Option V) :
    overlay (merge newer older) content = overlay newer (overlay older content) := by
  funext k
  cases hnew : newer k with
  | some w =>
    have hmerge : merge newer older k = some w := by rw [merge, hnew, Option.some_or]
    rw [overlay_some hmerge, overlay_some hnew]
  | none =>
    have hmerge : merge newer older k = older k := by rw [merge, hnew, Option.none_or]
    rw [overlay_none hnew]
    simp only [overlay, hmerge]

section Update

variable [DecidableEq K]

/-- The content after a write. -/
def write (content : K → Option V) (k : K) (w : Write V) : K → Option V :=
  Function.update content k (value w)

/-- A recorded change reads as a write. -/
theorem overlay_update (changes : K → Option (Write V)) (content : K → Option V) (k : K)
    (w : Write V) :
    overlay (Function.update changes k (some w)) content = write (overlay changes content) k w := by
  funext k'
  by_cases hk : k' = k
  · subst hk
    rw [overlay_some (Function.update_self _ _ _), write, Function.update_self]
  · rw [write, Function.update_of_ne hk]
    simp only [overlay, Function.update_of_ne hk]

/-- The content after a list of writes. -/
def writeAll (ws : List (K × Write V)) (content : K → Option V) : K → Option V :=
  ws.foldl (fun c e => write c e.1 e.2) content

@[simp] theorem writeAll_nil (content : K → Option V) : writeAll [] content = content := rfl

@[simp] theorem writeAll_cons (k : K) (w : Write V) (ws : List (K × Write V))
    (content : K → Option V) :
    writeAll ((k, w) :: ws) content = writeAll ws (write content k w) := rfl

/-- A key that is not written keeps its value. -/
theorem writeAll_of_notMem {ws : List (K × Write V)} {k : K} (h : k ∉ ws.map Prod.fst)
    (content : K → Option V) : writeAll ws content k = content k := by
  induction ws generalizing content with
  | nil => rfl
  | cons e ws ih =>
    obtain ⟨k', w⟩ := e
    rw [List.map_cons, List.mem_cons, not_or] at h
    rw [writeAll_cons, ih h.2, write, Function.update_of_ne h.1]

/-- A key that is written once holds what was written. -/
theorem writeAll_of_mem {ws : List (K × Write V)} (hnodup : (ws.map Prod.fst).Nodup) {k : K}
    {w : Write V} (h : (k, w) ∈ ws) (content : K → Option V) :
    writeAll ws content k = value w := by
  induction ws generalizing content with
  | nil => cases h
  | cons e ws ih =>
    obtain ⟨k', w'⟩ := e
    rw [List.map_cons, List.nodup_cons] at hnodup
    rw [writeAll_cons]
    rcases List.mem_cons.mp h with heq | hmem
    · cases heq
      rw [writeAll_of_notMem hnodup.1, write, Function.update_self]
    · exact ih hnodup.2 hmem _

/-- **Writing changes is laying them over.**  The writes may come in any order: no key has
two. -/
theorem writeAll_eq_overlay {ws : List (K × Write V)} (hnodup : (ws.map Prod.fst).Nodup)
    {changes : K → Option (Write V)} (hchanges : ∀ k w, changes k = some w ↔ (k, w) ∈ ws)
    (content : K → Option V) : writeAll ws content = overlay changes content := by
  funext k
  cases hk : changes k with
  | some w =>
    rw [overlay_some hk, writeAll_of_mem hnodup ((hchanges k w).mp hk)]
  | none =>
    rw [overlay_none hk]
    apply writeAll_of_notMem
    intro hmem
    obtain ⟨⟨k', w⟩, he, rfl⟩ := List.mem_map.mp hmem
    have hsome := (hchanges k' w).mpr he
    rw [hk] at hsome
    cases hsome

end Update

end WriteOverlay
