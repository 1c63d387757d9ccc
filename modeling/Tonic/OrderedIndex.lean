/-
# Two indexes of the same values

A small library about values that are kept twice: in a map by their key, and in a set that
is ordered by something else than the key.  It names nothing of any program: keys, values
and both orders are arbitrary.  The set finds a value by its order alone, so an insertion
is lost, or a removal takes another value with it, unless different values of the map
differ in that order; the rules below say so.
-/
import Mathlib

namespace OrderedIndex

open Std

variable {K V : Type*} {kcmp : K → K → Ordering} {vcmp : V → V → Ordering} {key : V → K}

/-- What a set lists is what it finds under itself. -/
theorem mem_toList_iff [TransCmp vcmp] {all : ExtTreeSet V vcmp} {v : V} :
    v ∈ all.toList ↔ all.get? v = some v := by
  show v ∈ all.inner.keys ↔ all.inner.getKey? v = some v
  rw [← ExtTreeMap.map_fst_toList_eq_keys, List.mem_map]
  constructor
  · rintro ⟨⟨w, u⟩, hmem, rfl⟩
    exact (ExtTreeMap.mem_toList_iff_getKey?_eq_some_and_getElem?_eq_some.mp hmem).1
  · intro hget
    refine ⟨(v, ()), ?_, rfl⟩
    rw [ExtTreeMap.mem_toList_iff_getKey?_eq_some_and_getElem?_eq_some]
    refine ⟨hget, ?_⟩
    have hmem : v ∈ all.inner := ExtTreeMap.mem_of_getKey?_eq_some hget
    exact ExtTreeMap.getElem?_eq_some_getElem hmem

/-- The map holds its values under their keys, and the set lists the values of the map. -/
structure Indexes [TransCmp kcmp] [TransCmp vcmp] (key : V → K) (byKey : ExtTreeMap K V kcmp)
    (all : ExtTreeSet V vcmp) : Prop where
  key_eq : ∀ k v, byKey[k]? = some v → key v = k
  mem_iff : ∀ v, v ∈ all.toList ↔ byKey[key v]? = some v

variable [TransCmp kcmp] [LawfulEqCmp kcmp] [TransCmp vcmp] {byKey : ExtTreeMap K V kcmp}
  {all : ExtTreeSet V vcmp}

omit [LawfulEqCmp kcmp] in
theorem Indexes.empty : Indexes key (∅ : ExtTreeMap K V kcmp) (∅ : ExtTreeSet V vcmp) where
  key_eq k v hv := by
    rw [ExtTreeMap.getElem?_empty] at hv
    cases hv
  mem_iff v := by
    rw [mem_toList_iff, ExtTreeMap.getElem?_empty, ExtTreeSet.get?_empty]

omit [LawfulEqCmp kcmp] in
/-- No key is listed twice. -/
theorem Indexes.nodup_keys (h : Indexes key byKey all) : (all.toList.map key).Nodup := by
  refine List.pairwise_map.mpr ?_
  refine (ExtTreeSet.ordered_toList (t := all)).imp_of_mem ?_
  intro v w hv hw hlt heq
  have hv' := (h.mem_iff v).mp hv
  have hw' := (h.mem_iff w).mp hw
  rw [heq, hw'] at hv'
  obtain rfl := Option.some.inj hv'
  have hself : vcmp w w = .eq := ReflCmp.compare_self
  rw [hself] at hlt
  cases hlt

/-- **Insertion**: a value under a vacant key, whose order no value of the map has, goes into
both. -/
theorem Indexes.insert (h : Indexes key byKey all) {v : V} (hvacant : byKey[key v]? = none)
    (hfresh : ∀ (k : K) (w : V), byKey[k]? = some w → vcmp v w ≠ .eq) :
    Indexes key (byKey.insert (key v) v) (all.insert v) where
  key_eq k w hw := by
    rw [ExtTreeMap.getElem?_insert] at hw
    split at hw
    next heq =>
      cases hw
      exact LawfulEqCmp.eq_of_compare heq
    next => exact h.key_eq k w hw
  mem_iff w := by
    -- the set has no value of this order, or the map would have it
    have hnew : v ∉ all := by
      intro hmem
      have hfound := ExtTreeSet.get?_eq_some_get (a := v) hmem
      have hcmp : vcmp v (all.get v hmem) = .eq :=
        OrientedCmp.eq_symm (ExtTreeSet.compare_get_self hmem)
      have hself : all.get? (all.get v hmem) = some (all.get v hmem) := by
        rw [← ExtTreeSet.get?_congr hcmp]
        exact hfound
      exact hfresh _ _ ((h.mem_iff _).mp (mem_toList_iff.mpr hself)) hcmp
    rw [mem_toList_iff, ExtTreeSet.get?_insert, ExtTreeMap.getElem?_insert]
    by_cases heq : w = v
    · subst heq
      rw [if_pos ⟨ReflCmp.compare_self, hnew⟩, if_pos ReflCmp.compare_self]
    · have hold := h.mem_iff w
      rw [mem_toList_iff] at hold
      constructor
      · intro hget
        split at hget
        next => exact absurd (Option.some.inj hget).symm heq
        next =>
          have hw := hold.mp hget
          rw [if_neg, hw]
          intro hkey
          rw [← LawfulEqCmp.eq_of_compare hkey, hvacant] at hw
          cases hw
      · intro hget
        split at hget
        next => exact absurd (Option.some.inj hget).symm heq
        next =>
          rw [if_neg, hold.mpr hget]
          rintro ⟨hcmp, -⟩
          exact hfresh _ _ hget hcmp

/-- **Removal**: a value of the map, whose order no other value of the map has, leaves both. -/
theorem Indexes.erase (h : Indexes key byKey all) {v : V} (hv : byKey[key v]? = some v)
    (hdistinct : ∀ (k : K) (w : V), byKey[k]? = some w → vcmp v w = .eq → w = v) :
    Indexes key (byKey.erase (key v)) (all.erase v) where
  key_eq k w hw := by
    rw [ExtTreeMap.getElem?_erase] at hw
    split at hw
    · cases hw
    · exact h.key_eq k w hw
  mem_iff w := by
    have hold := h.mem_iff w
    rw [mem_toList_iff] at hold
    rw [mem_toList_iff, ExtTreeSet.get?_erase, ExtTreeMap.getElem?_erase]
    constructor
    · intro hget
      split at hget
      · cases hget
      next hcmp =>
        have hw := hold.mp hget
        rw [if_neg, hw]
        intro hkey
        rw [← LawfulEqCmp.eq_of_compare hkey, hv] at hw
        cases hw
        exact hcmp ReflCmp.compare_self
    · intro hget
      split at hget
      · cases hget
      next hkey =>
        rw [if_neg, hold.mpr hget]
        intro hcmp
        obtain rfl := hdistinct _ _ hget hcmp
        exact hkey ReflCmp.compare_self

end OrderedIndex
