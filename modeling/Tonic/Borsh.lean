/-
# The borsh encoding of the types the program derives it for

Borsh writes integers little-endian, fixed arrays as they are, an option as a tag
byte before its content, a vector as its `u32` length before its items, and
tuples and structs as their fields in order.  This module is the encoder, as a
class with one instance for each of these shapes, and the two facts that
preimages and wire formats rest on: how long an encoding is, and that it is
self-delimiting (it can be read back in front of any other bytes).
-/
import Tonic.ByteEncoding

open ByteEncoding

/-! ## Fixed arrays -/

/-- A `[u8; n]` array. -/
structure FixedBytes (n : ℕ) where
  bytes : List UInt8
  length_bytes : bytes.length = n
  deriving DecidableEq

attribute [simp] FixedBytes.length_bytes

theorem FixedBytes.ext {n : ℕ} {a b : FixedBytes n} (h : a.bytes = b.bytes) : a = b := by
  obtain ⟨as, ha⟩ := a
  obtain ⟨bs, hb⟩ := b
  cases h
  rfl

/-! ## The encoder -/

/-- Types that derive `BorshSerialize`. -/
class BorshSerialize (α : Type) where
  serialize : α → List UInt8

export BorshSerialize (serialize)

instance : BorshSerialize UInt8 where
  serialize b := [b]

instance : BorshSerialize UInt64 where
  serialize n := leBytes 8 n.toNat

instance {n : ℕ} : BorshSerialize (FixedBytes n) where
  serialize a := a.bytes

instance {α β : Type} [BorshSerialize α] [BorshSerialize β] : BorshSerialize (α × β) where
  serialize p := serialize p.1 ++ serialize p.2

instance {α : Type} [BorshSerialize α] : BorshSerialize (Option α) where
  serialize
    | none => [0]
    | some a => 1 :: serialize a

/-- A vector: its length as a `u32`, then its items. -/
instance {α : Type} [BorshSerialize α] : BorshSerialize (List α) where
  serialize xs := leBytes 4 xs.length ++ xs.flatMap serialize

section Equations

variable {α β : Type} [BorshSerialize α] [BorshSerialize β]

theorem serialize_uint64 (n : UInt64) : serialize n = leBytes 8 n.toNat := rfl

theorem serialize_fixedBytes {n : ℕ} (a : FixedBytes n) : serialize a = a.bytes := rfl

theorem serialize_prod (p : α × β) : serialize p = serialize p.1 ++ serialize p.2 := rfl

theorem serialize_none : serialize (none : Option α) = [0] := rfl

theorem serialize_some (a : α) : serialize (some a) = 1 :: serialize a := rfl

theorem serialize_list (xs : List α) :
    serialize xs = leBytes 4 xs.length ++ xs.flatMap serialize := rfl

/-- A byte vector is its length and its bytes. -/
theorem serialize_bytes (bs : List UInt8) : serialize bs = leBytes 4 bs.length ++ bs := by
  rw [serialize_list]
  congr 1
  exact List.flatMap_singleton' bs

theorem length_serialize_bytes (bs : List UInt8) : (serialize bs).length = bs.length + 4 := by
  rw [serialize_bytes, List.length_append, length_leBytes, Nat.add_comm]

/-- A vector of equally long items. -/
theorem length_serialize_list {w : ℕ} (hw : ∀ a : α, (serialize a).length = w) (xs : List α) :
    (serialize xs).length = 4 + w * xs.length := by
  rw [serialize_list, List.length_append, length_leBytes, length_flatMap_of_const hw]

end Equations

/-! ## Self-delimiting encodings -/

/-- An encoding that can be read back in front of any other bytes. -/
class SelfDelimiting (α : Type) [BorshSerialize α] : Prop where
  append_inj : ∀ {a b : α} {s t : List UInt8},
    serialize a ++ s = serialize b ++ t → a = b ∧ s = t

namespace SelfDelimiting

variable {α β : Type} [BorshSerialize α] [BorshSerialize β]

theorem serialize_injective [SelfDelimiting α] :
    Function.Injective (serialize : α → List UInt8) := by
  intro a b h
  exact (append_inj (s := []) (t := []) (by rw [h])).1

/-- An injective encoding of constant width is self-delimiting. -/
theorem of_fixed_width {w : ℕ} (hw : ∀ a : α, (serialize a).length = w)
    (hinj : Function.Injective (serialize : α → List UInt8)) : SelfDelimiting α where
  append_inj := by
    intro a b s t h
    obtain ⟨hab, hst⟩ := append_left_inj ((hw a).trans (hw b).symm) h
    exact ⟨hinj hab, hst⟩

instance : SelfDelimiting UInt8 :=
  of_fixed_width (w := 1) (fun _ => rfl) (fun _ _ h => (List.cons.inj h).1)

instance : SelfDelimiting UInt64 :=
  of_fixed_width (w := 8) (fun _ => length_leBytes _ _) (fun _ _ h => leBytes_uint64_inj h)

instance {n : ℕ} : SelfDelimiting (FixedBytes n) :=
  of_fixed_width (w := n) (fun a => a.length_bytes) (fun _ _ h => FixedBytes.ext h)

instance [SelfDelimiting α] [SelfDelimiting β] : SelfDelimiting (α × β) where
  append_inj := by
    intro a b s t h
    rw [serialize_prod, serialize_prod, List.append_assoc, List.append_assoc] at h
    obtain ⟨h1, hrest⟩ := append_inj h
    obtain ⟨h2, hst⟩ := append_inj hrest
    exact ⟨Prod.ext h1 h2, hst⟩

instance [SelfDelimiting α] : SelfDelimiting (Option α) where
  append_inj := by
    intro a b s t h
    cases a with
    | none =>
      cases b with
      | none => exact ⟨rfl, (List.cons.inj h).2⟩
      | some b => exact absurd (List.cons.inj h).1 (by decide)
    | some a =>
      cases b with
      | none => exact absurd (List.cons.inj h).1 (by decide)
      | some b =>
        obtain ⟨hab, hst⟩ := append_inj (List.cons.inj h).2
        exact ⟨congrArg some hab, hst⟩

/-- A type whose encoding is that of a self-delimiting tuple of its fields. -/
theorem of_fields [SelfDelimiting β] (fields : α → β) (hinj : Function.Injective fields)
    (hser : ∀ a : α, serialize a = serialize (fields a)) : SelfDelimiting α where
  append_inj := by
    intro a b s t h
    rw [hser, hser] at h
    obtain ⟨hab, hst⟩ := append_inj h
    exact ⟨hinj hab, hst⟩

end SelfDelimiting

/-- A vector of equally long items is determined by its bytes, however long it is: where the
`u32` length wraps, the total length still tells the lengths apart. -/
theorem serialize_list_inj {α : Type} [BorshSerialize α] {w : ℕ} (hpos : 0 < w)
    (hw : ∀ a : α, (serialize a).length = w)
    (hinj : Function.Injective (serialize : α → List UInt8)) {xs ys : List α}
    (h : serialize xs = serialize ys) : xs = ys := by
  rw [serialize_list, serialize_list] at h
  obtain ⟨-, hitems⟩ := append_left_inj (by rw [length_leBytes, length_leBytes]) h
  exact flatMap_inj hpos hw hinj hitems
