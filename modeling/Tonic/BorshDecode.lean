/-
# The borsh decoder

The reader of each shape that `Borsh` writes.  A reader takes a value from the front
of its input and leaves the rest; `fromSlice` accepts a byte string that is read to
its end.  `LawfulBorsh` is the one law of a reader: it returns a value exactly where
the input starts with the encoding of that value.  Read from right to left the law is
the round trip, and from left to right it says that no other bytes are accepted.
-/
import Tonic.Borsh

open ByteEncoding

/-- Types that derive `BorshDeserialize`. -/
class BorshDeserialize (α : Type) where
  deserializeReader : List UInt8 → Option (α × List UInt8)

export BorshDeserialize (deserializeReader)

/-- `borsh::from_slice`: all bytes have to be read. -/
def fromSlice {α : Type} [BorshDeserialize α] (bytes : List UInt8) : Option α :=
  match deserializeReader bytes with
  | some (a, []) => some a
  | _ => none

/-- Whether every vector in a value has a length that fits its `u32`; if not, borsh does not
write the value. -/
class BorshFits (α : Type) where
  fits : α → Bool

export BorshFits (fits)

/-- `borsh::to_vec`. -/
def toVec {α : Type} [BorshSerialize α] [BorshFits α] (a : α) : Option (List UInt8) :=
  if fits a then some (serialize a) else none

/-! ## The readers -/

section Readers

variable {α β : Type}

/-- Reads `n` bytes. -/
def readBytes (n : ℕ) (bytes : List UInt8) : Option (List UInt8 × List UInt8) :=
  if n ≤ bytes.length then some (bytes.take n, bytes.drop n) else none

instance : BorshDeserialize UInt8 where
  deserializeReader
    | [] => none
    | b :: bytes => some (b, bytes)

instance : BorshDeserialize UInt64 where
  deserializeReader bytes := do
    let (number, bytes) ← readBytes 8 bytes
    some (UInt64.ofNat (leValue number), bytes)

instance {n : ℕ} : BorshDeserialize (FixedBytes n) where
  deserializeReader bytes :=
    if h : n ≤ bytes.length then
      some (⟨bytes.take n, List.length_take_of_le h⟩, bytes.drop n)
    else none

instance [BorshDeserialize α] [BorshDeserialize β] : BorshDeserialize (α × β) where
  deserializeReader bytes := do
    let (a, bytes) ← deserializeReader bytes
    let (b, bytes) ← deserializeReader bytes
    some ((a, b), bytes)

instance [BorshDeserialize α] : BorshDeserialize (Option α) where
  deserializeReader
    | [] => none
    | tag :: bytes =>
      if tag = 0 then some (none, bytes)
      else if tag = 1 then do
        let (a, bytes) ← deserializeReader bytes
        some (some a, bytes)
      else none

/-- Reads `n` items. -/
def readItems [BorshDeserialize α] : ℕ → List UInt8 → Option (List α × List UInt8)
  | 0, bytes => some ([], bytes)
  | n + 1, bytes => do
    let (a, bytes) ← deserializeReader bytes
    let (as, bytes) ← readItems n bytes
    some (a :: as, bytes)

instance [BorshDeserialize α] : BorshDeserialize (List α) where
  deserializeReader bytes := do
    let (length, bytes) ← readBytes 4 bytes
    readItems (leValue length) bytes

/-- The reader of a struct reads its fields in order. -/
@[reducible] def BorshDeserialize.ofFields [BorshDeserialize β] (mk : β → α) : BorshDeserialize α where
  deserializeReader bytes := do
    let (fields, bytes) ← deserializeReader bytes
    some (mk fields, bytes)

end Readers

/-! ## Lengths that fit -/

section Fits

variable {α β : Type}

instance : BorshFits UInt8 := ⟨fun _ => true⟩

instance : BorshFits UInt64 := ⟨fun _ => true⟩

instance {n : ℕ} : BorshFits (FixedBytes n) := ⟨fun _ => true⟩

instance [BorshFits α] [BorshFits β] : BorshFits (α × β) := ⟨fun p => fits p.1 && fits p.2⟩

instance [BorshFits α] : BorshFits (Option α) := ⟨fun o => o.all fits⟩

instance [BorshFits α] : BorshFits (List α) :=
  ⟨fun as => decide (as.length < 2 ^ 32) && as.all fits⟩

/-- The vectors of a struct are those of its fields. -/
@[reducible] def BorshFits.ofFields [BorshFits β] (fields : α → β) : BorshFits α :=
  ⟨fun a => fits (fields a)⟩

end Fits

/-! ## The law -/

/-- A reader returns exactly what was written.  No encoding is empty, so a vector has no more
items than bytes. -/
class LawfulBorsh (α : Type) [BorshSerialize α] [BorshDeserialize α] [BorshFits α] : Prop where
  read_iff : ∀ {bytes : List UInt8} {a : α} {rest : List UInt8},
    deserializeReader bytes = some (a, rest) ↔ fits a = true ∧ bytes = serialize a ++ rest
  length_pos : ∀ a : α, 0 < (serialize a).length
  fits_of_length : ∀ a : α, (serialize a).length < 2 ^ 32 → fits a = true

namespace LawfulBorsh

variable {α β : Type}

theorem readBytes_iff {n : ℕ} {bytes front rest : List UInt8} :
    readBytes n bytes = some (front, rest) ↔ front.length = n ∧ bytes = front ++ rest := by
  rw [readBytes]
  constructor
  · intro h
    by_cases hn : n ≤ bytes.length
    · rw [if_pos hn] at h
      obtain ⟨rfl, rfl⟩ := Prod.mk.inj (Option.some.inj h)
      exact ⟨List.length_take_of_le hn, (List.take_append_drop n bytes).symm⟩
    · rw [if_neg hn] at h
      cases h
  · rintro ⟨rfl, rfl⟩
    rw [if_pos (by simp), List.take_left, List.drop_left]

instance : LawfulBorsh UInt8 where
  read_iff := by
    intro bytes a rest
    constructor
    · intro h
      cases bytes with
      | nil => cases h
      | cons b bytes =>
        obtain ⟨rfl, rfl⟩ := Prod.mk.inj (Option.some.inj h)
        exact ⟨rfl, rfl⟩
    · rintro ⟨-, rfl⟩
      rfl
  length_pos _ := Nat.one_pos
  fits_of_length _ _ := rfl

instance : LawfulBorsh UInt64 where
  read_iff := by
    intro bytes a rest
    show (readBytes 8 bytes).bind _ = _ ↔ true = true ∧ bytes = leBytes 8 a.toNat ++ rest
    constructor
    · intro h
      obtain ⟨⟨number, rest'⟩, hread, hsome⟩ := Option.bind_eq_some_iff.mp h
      obtain ⟨hlen, rfl⟩ := readBytes_iff.mp hread
      obtain ⟨rfl, rfl⟩ := Prod.mk.inj (Option.some.inj hsome)
      have hlt : leValue number < 2 ^ 64 := by
        have hvalue := leValue_lt number
        rw [hlen] at hvalue
        exact hvalue
      rw [UInt64.toNat_ofNat_of_lt' hlt, ← hlen, leBytes_leValue]
      exact ⟨rfl, rfl⟩
    · rintro ⟨-, rfl⟩
      rw [readBytes_iff.mpr ⟨length_leBytes 8 a.toNat, rfl⟩, Option.bind_some]
      show some (UInt64.ofNat (leValue (leBytes 8 a.toNat)), rest) = _
      rw [leValue_leBytes (show a.toNat < 256 ^ 8 from a.toNat_lt), UInt64.ofNat_toNat]
  length_pos a := by
    rw [serialize_uint64, length_leBytes]
    decide
  fits_of_length _ _ := rfl

instance {n : ℕ} [NeZero n] : LawfulBorsh (FixedBytes n) where
  read_iff := by
    intro bytes a rest
    show (if h : n ≤ bytes.length then _ else _) = _ ↔ true = true ∧ bytes = a.bytes ++ rest
    constructor
    · intro h
      by_cases hn : n ≤ bytes.length
      · rw [dif_pos hn] at h
        obtain ⟨rfl, rfl⟩ := Prod.mk.inj (Option.some.inj h)
        exact ⟨rfl, (List.take_append_drop n bytes).symm⟩
      · rw [dif_neg hn] at h
        cases h
    · rintro ⟨-, rfl⟩
      have hn : n ≤ (a.bytes ++ rest).length := by simp
      rw [dif_pos hn]
      congr 2
      · exact FixedBytes.ext (List.take_left' a.length_bytes)
      · exact List.drop_left' a.length_bytes
  length_pos a := by
    rw [serialize_fixedBytes, a.length_bytes]
    exact Nat.pos_of_neZero n
  fits_of_length _ _ := rfl

section Composite

variable [BorshSerialize α] [BorshDeserialize α] [BorshFits α] [LawfulBorsh α]
  [BorshSerialize β] [BorshDeserialize β] [BorshFits β] [LawfulBorsh β]

instance : LawfulBorsh (α × β) where
  read_iff := by
    intro bytes p rest
    obtain ⟨a, b⟩ := p
    show (deserializeReader bytes).bind _ = _ ↔
      (fits a && fits b) = true ∧ bytes = (serialize a ++ serialize b) ++ rest
    rw [Bool.and_eq_true]
    constructor
    · intro h
      obtain ⟨⟨a', bytes'⟩, ha, h'⟩ := Option.bind_eq_some_iff.mp h
      obtain ⟨⟨b', bytes''⟩, hb, hsome⟩ := Option.bind_eq_some_iff.mp h'
      obtain ⟨hp, rfl⟩ := Prod.mk.inj (Option.some.inj hsome)
      obtain ⟨rfl, rfl⟩ := Prod.mk.inj hp
      obtain ⟨hfa, rfl⟩ := read_iff.mp ha
      obtain ⟨hfb, rfl⟩ := read_iff.mp hb
      exact ⟨⟨hfa, hfb⟩, (List.append_assoc _ _ _).symm⟩
    · rintro ⟨⟨hfa, hfb⟩, rfl⟩
      rw [List.append_assoc, read_iff.mpr ⟨hfa, rfl⟩, Option.bind_some]
      show (deserializeReader (serialize b ++ rest)).bind _ = _
      rw [read_iff.mpr ⟨hfb, rfl⟩, Option.bind_some]
  length_pos p := by
    have ha := length_pos p.1
    rw [serialize_prod, List.length_append]
    omega
  fits_of_length p h := by
    rw [serialize_prod, List.length_append] at h
    show (fits p.1 && fits p.2) = true
    rw [fits_of_length p.1 (by omega), fits_of_length p.2 (by omega)]
    rfl

omit [LawfulBorsh β] [BorshSerialize β] [BorshDeserialize β] [BorshFits β] in
theorem readItems_iff {n : ℕ} {bytes rest : List UInt8} {as : List α} :
    readItems n bytes = some (as, rest) ↔
      as.length = n ∧ as.all fits = true ∧ bytes = as.flatMap serialize ++ rest := by
  induction n generalizing bytes as with
  | zero =>
    rw [readItems]
    constructor
    · intro h
      obtain ⟨rfl, rfl⟩ := Prod.mk.inj (Option.some.inj h)
      exact ⟨rfl, rfl, rfl⟩
    · rintro ⟨hlen, -, rfl⟩
      rw [List.eq_nil_of_length_eq_zero hlen]
      rfl
  | succ n ih =>
    constructor
    · intro h
      obtain ⟨⟨a, bytes'⟩, ha, h'⟩ := Option.bind_eq_some_iff.mp h
      obtain ⟨⟨as', bytes''⟩, has, hsome⟩ := Option.bind_eq_some_iff.mp h'
      obtain ⟨rfl, rfl⟩ := Prod.mk.inj (Option.some.inj hsome)
      obtain ⟨hfa, rfl⟩ := read_iff.mp ha
      obtain ⟨rfl, hfas, rfl⟩ := ih.mp has
      refine ⟨rfl, ?_, ?_⟩
      · rw [List.all_cons, hfa, hfas]
        rfl
      · rw [List.flatMap_cons, List.append_assoc]
    · rintro ⟨hlen, hfits, rfl⟩
      cases as with
      | nil => cases hlen
      | cons a as =>
        rw [List.all_cons, Bool.and_eq_true] at hfits
        rw [List.flatMap_cons, List.append_assoc]
        show (deserializeReader _).bind _ = _
        rw [read_iff.mpr ⟨hfits.1, rfl⟩, Option.bind_some]
        show (readItems n _).bind _ = _
        rw [ih.mpr ⟨Nat.succ.inj hlen, hfits.2, rfl⟩, Option.bind_some]

omit [LawfulBorsh β] [BorshSerialize β] [BorshDeserialize β] [BorshFits β] in
theorem length_le_length_flatMap (as : List α) :
    as.length ≤ (as.flatMap serialize).length := by
  induction as with
  | nil => exact le_rfl
  | cons a as ih =>
    have ha := length_pos a
    rw [List.flatMap_cons, List.length_append, List.length_cons]
    omega

omit [LawfulBorsh β] [BorshSerialize β] [BorshDeserialize β] [BorshFits β] in
theorem all_fits_of_length {as : List α} (h : (as.flatMap serialize).length < 2 ^ 32) :
    as.all fits = true := by
  induction as with
  | nil => rfl
  | cons a as ih =>
    rw [List.flatMap_cons, List.length_append] at h
    rw [List.all_cons, fits_of_length a (by omega), ih (by omega)]
    rfl

omit [LawfulBorsh β] [BorshSerialize β] [BorshDeserialize β] [BorshFits β] in
/-- The length that is read is the length that was written: it fits four bytes. -/
instance : LawfulBorsh (List α) where
  read_iff := by
    intro bytes as rest
    show (readBytes 4 bytes).bind _ = _ ↔ (decide (as.length < 2 ^ 32) && as.all fits) = true ∧
      bytes = (leBytes 4 as.length ++ as.flatMap serialize) ++ rest
    rw [Bool.and_eq_true, decide_eq_true_iff]
    constructor
    · intro h
      obtain ⟨⟨number, bytes'⟩, hread, hitems⟩ := Option.bind_eq_some_iff.mp h
      obtain ⟨hlen, rfl⟩ := readBytes_iff.mp hread
      obtain ⟨hcount, hfits, rfl⟩ := readItems_iff.mp hitems
      have hvalue := leValue_lt number
      rw [hlen] at hvalue
      refine ⟨⟨by omega, hfits⟩, ?_⟩
      rw [List.append_assoc, hcount, ← hlen, leBytes_leValue]
    · rintro ⟨⟨hlt, hfits⟩, rfl⟩
      rw [List.append_assoc, readBytes_iff.mpr ⟨length_leBytes 4 as.length, rfl⟩,
        Option.bind_some]
      exact readItems_iff.mpr ⟨(leValue_leBytes (by omega)).symm, hfits, rfl⟩
  length_pos as := by
    rw [serialize_list, List.length_append, length_leBytes]
    omega
  fits_of_length as h := by
    rw [serialize_list, List.length_append, length_leBytes] at h
    show (decide (as.length < 2 ^ 32) && as.all fits) = true
    have hitems := length_le_length_flatMap as
    rw [decide_eq_true (by omega), all_fits_of_length (by omega)]
    rfl

omit [LawfulBorsh β] [BorshSerialize β] [BorshDeserialize β] [BorshFits β] in
instance : LawfulBorsh (Option α) where
  read_iff := by
    intro bytes o rest
    constructor
    · intro h
      cases bytes with
      | nil => cases h
      | cons tag bytes =>
        change (if tag = 0 then _ else if tag = 1 then (deserializeReader bytes).bind _ else _)
          = _ at h
        by_cases h0 : tag = 0
        · rw [if_pos h0] at h
          obtain ⟨rfl, rfl⟩ := Prod.mk.inj (Option.some.inj h)
          exact ⟨rfl, by rw [h0]; rfl⟩
        · rw [if_neg h0] at h
          by_cases h1 : tag = 1
          · rw [if_pos h1] at h
            obtain ⟨⟨a, bytes'⟩, ha, hsome⟩ := Option.bind_eq_some_iff.mp h
            obtain ⟨rfl, rfl⟩ := Prod.mk.inj (Option.some.inj hsome)
            obtain ⟨hfits, rfl⟩ := read_iff.mp ha
            exact ⟨hfits, by rw [h1]; rfl⟩
          · rw [if_neg h1] at h
            cases h
    · rintro ⟨hfits, rfl⟩
      cases o with
      | none => rfl
      | some a =>
        show (deserializeReader (serialize a ++ rest)).bind _ = _
        have hread : deserializeReader (serialize a ++ rest) = some (a, rest) :=
          (read_iff (α := α)).mpr ⟨hfits, rfl⟩
        rw [hread, Option.bind_some]
  length_pos o := by
    cases o with
    | none => exact Nat.one_pos
    | some a => exact Nat.succ_pos _
  fits_of_length o h := by
    cases o with
    | none => rfl
    | some a =>
      rw [serialize_some, List.length_cons] at h
      exact fits_of_length a (by omega)

/-- A struct is read, written and measured as the tuple of its fields. -/
theorem of_fields {γ : Type} [BorshSerialize γ] [BorshDeserialize γ] [BorshFits γ]
    (fields : γ → α) (mk : α → γ) (hmk : ∀ c, mk (fields c) = c := by intros; rfl)
    (hfields : ∀ a, fields (mk a) = a := by intros; rfl)
    (hserialize : ∀ c : γ, serialize c = serialize (fields c) := by intros; rfl)
    (hfits : ∀ c : γ, fits c = fits (fields c) := by intros; rfl)
    (hread : ∀ bytes, (deserializeReader bytes : Option (γ × List UInt8))
      = (BorshDeserialize.ofFields mk).deserializeReader bytes := by intros; rfl) :
    LawfulBorsh γ where
  read_iff := by
    intro bytes c rest
    rw [hread, hserialize, hfits]
    show (deserializeReader bytes).bind _ = _ ↔ _
    constructor
    · intro h
      obtain ⟨⟨a, bytes'⟩, ha, hsome⟩ := Option.bind_eq_some_iff.mp h
      obtain ⟨rfl, rfl⟩ := Prod.mk.inj (Option.some.inj hsome)
      rw [hfields]
      exact read_iff.mp ha
    · intro h
      rw [read_iff.mpr h, Option.bind_some]
      show some (mk (fields c), rest) = _
      rw [hmk]
  length_pos c := by
    rw [hserialize]
    exact length_pos (fields c)
  fits_of_length c h := by
    rw [hserialize] at h
    rw [hfits]
    exact fits_of_length (fields c) h

end Composite

/-! ## Whole byte strings -/

section Whole

variable [BorshSerialize α] [BorshDeserialize α] [BorshFits α] [LawfulBorsh α]

/-- A byte string is accepted as a value exactly if it is what is written for that value. -/
theorem fromSlice_eq_some_iff {bytes : List UInt8} {a : α} :
    fromSlice bytes = some a ↔ toVec a = some bytes := by
  have hwhole : fromSlice bytes = some a ↔ deserializeReader bytes = some (a, []) := by
    rw [fromSlice]
    split
    next a' h =>
      rw [h]
      simp
    next h =>
      constructor
      · intro hnone
        cases hnone
      · intro hread
        exact absurd hread (h a)
  rw [hwhole, read_iff, List.append_nil, toVec]
  by_cases hfits : fits a = true
  · rw [if_pos hfits, Option.some.injEq]
    exact ⟨fun h => h.2.symm, fun h => ⟨hfits, h.symm⟩⟩
  · rw [if_neg hfits]
    exact ⟨fun h => absurd h.1 hfits, fun h => nomatch h⟩

/-- An encoding shorter than `2 ^ 32` bytes is written. -/
theorem toVec_of_length {a : α} (h : (serialize a).length < 2 ^ 32) :
    toVec a = some (serialize a) := by
  rw [toVec, if_pos (fits_of_length a h)]

end Whole

end LawfulBorsh
