/-
# The data model of serde

A small library about serde: a serializer emits a value of the data model, and a
deserializer is asked for a shape and hands something to a visitor.  It names nothing of
any program.  A format is faithful if it hands out what was emitted where it is asked for
the shape that was emitted; whether it lends the bytes of its input or copies them is its
own choice, and the visitors of borrowed types take lent ones only.

Strings are the lists of their bytes.
-/
import Tonic.ByteEncoding

namespace Serde

open ByteEncoding

/-! ## Values, shapes and what is handed out -/

/-- What a serializer emits. -/
inductive Value where
  | str (s : List UInt8)
  | bytes (bs : List UInt8)
  | tuple (items : List UInt8)
  deriving DecidableEq

/-- What a deserializer is asked for. -/
inductive Shape where
  | str
  | bytes
  | tuple (length : ℕ)
  deriving DecidableEq

/-- The call of a visitor. -/
inductive Handout where
  | borrowedStr (s : List UInt8)
  | str (s : List UInt8)
  | borrowedBytes (bs : List UInt8)
  | bytes (bs : List UInt8)
  | seq (items : List UInt8)
  deriving DecidableEq

namespace Value

def shape : Value → Shape
  | .str _ => .str
  | .bytes _ => .bytes
  | .tuple items => .tuple items.length

/-- The value lent from the input. -/
def borrowed : Value → Handout
  | .str s => .borrowedStr s
  | .bytes bs => .borrowedBytes bs
  | .tuple items => .seq items

/-- The value copied out of the input. -/
def owned : Value → Handout
  | .str s => .str s
  | .bytes bs => .bytes bs
  | .tuple items => .seq items

def handout (lends : Bool) (v : Value) : Handout := if lends then v.borrowed else v.owned

def length : Value → ℕ
  | .str s => s.length
  | .bytes bs => bs.length
  | .tuple items => items.length

end Value

/-- `de::Error`: a visitor that does not expect the call, a sequence that is too short, the end of
the input, or an error of the type's own. -/
inductive Error (E : Type) where
  | invalidType
  | invalidLength (length : ℕ)
  | endOfInput
  | custom (error : E)
  deriving DecidableEq

/-! ## Formats -/

/-- A format with its serializer and its deserializer.  It hands out what it was given if it is
asked for its shape; a text format promises this of strings, a binary one of byte strings too. -/
structure Format where
  humanReadable : Bool
  Output : Type
  emit : Value → Output
  request : Output → Shape → Option Handout
  faithful : ∀ v : Value, v.length < 2 ^ 64 →
    (humanReadable = true → ∀ bs, v ≠ .bytes bs) →
    request (emit v) v.shape = some v.borrowed ∨ request (emit v) v.shape = some v.owned

/-- The format lends the value from its input. -/
def Format.Lends (f : Format) (v : Value) : Prop :=
  f.request (f.emit v) v.shape = some v.borrowed

/-- A byte string carries a prefix for its length and a tuple carries none: a tuple asked for where
a byte string was written starts with the prefix. -/
def Format.PrefixesLengths (f : Format) (lengthPrefix : ℕ → List UInt8) : Prop :=
  ∀ (bs : List UInt8) (n : ℕ), n ≤ (lengthPrefix bs.length ++ bs).length →
    f.request (f.emit (.bytes bs)) (.tuple n) = some (.seq ((lengthPrefix bs.length ++ bs).take n))

/-- A tree of values, as JSON is read into; byte strings become lists of numbers.  The tree lends
its strings, or gives them away. -/
def valueTree (lends : Bool) : Format where
  humanReadable := true
  Output := Value
  emit
    | .bytes bs => .tuple bs
    | v => v
  request output _ := some (output.handout lends)
  faithful v _ hbytes := by
    cases v with
    | bytes bs => exact absurd rfl (hbytes rfl bs)
    | str s => cases lends <;> simp [Value.handout]
    | tuple items => cases lends <;> simp [Value.handout]

namespace Compact

/-- Eight bytes for a length. -/
def lengthPrefix (n : ℕ) : List UInt8 := leBytes 8 n

def emit : Value → List UInt8
  | .str s => lengthPrefix s.length ++ s
  | .bytes bs => lengthPrefix bs.length ++ bs
  | .tuple items => items

/-- What stands behind its length. -/
def readPrefixed (output : List UInt8) : Option (List UInt8) :=
  if leValue (output.take 8) ≤ (output.drop 8).length then
    some ((output.drop 8).take (leValue (output.take 8)))
  else none

theorem readPrefixed_append {bs : List UInt8} (h : bs.length < 2 ^ 64) :
    readPrefixed (lengthPrefix bs.length ++ bs) = some bs := by
  have h8 : (lengthPrefix bs.length).length = 8 := length_leBytes 8 bs.length
  have hvalue : leValue (lengthPrefix bs.length) = bs.length := leValue_leBytes h
  rw [readPrefixed, List.take_left' h8, List.drop_left' h8, hvalue, if_pos le_rfl,
    List.take_length]

def request (lends : Bool) (output : List UInt8) : Shape → Option Handout
  | .str => (readPrefixed output).map fun s => (Value.str s).handout lends
  | .bytes => (readPrefixed output).map fun bs => (Value.bytes bs).handout lends
  | .tuple n => if n ≤ output.length then some (.seq (output.take n)) else none

end Compact

/-- A compact binary format, over a slice that it lends from or a reader that it copies out of. -/
def compact (lends : Bool) : Format where
  humanReadable := false
  Output := List UInt8
  emit := Compact.emit
  request := Compact.request lends
  faithful v hlength _ := by
    cases v with
    | str s =>
      simp only [Compact.emit, Compact.request, Value.shape]
      rw [Compact.readPrefixed_append hlength]
      cases lends <;> simp [Value.handout]
    | bytes bs =>
      simp only [Compact.emit, Compact.request, Value.shape]
      rw [Compact.readPrefixed_append hlength]
      cases lends <;> simp [Value.handout]
    | tuple items => simp [Compact.emit, Compact.request, Value.shape, Value.borrowed]

theorem compact_prefixesLengths (lends : Bool) :
    (compact lends).PrefixesLengths Compact.lengthPrefix :=
  fun _ _ h => if_pos h

/-! ## Types -/

/-- A `Deserialize` that makes one request: what it asks for, and what its visitor makes of the
answer. -/
structure Deserialize (E T : Type) where
  shape : Shape
  visit : Handout → Except (Error E) T

namespace Deserialize

variable {E T U : Type}

/-- Runs the request on what a format has written. -/
def run (d : Deserialize E T) (f : Format) (output : f.Output) : Except (Error E) T :=
  match f.request output d.shape with
  | none => .error .endOfInput
  | some handout => d.visit handout

/-- Goes on with the value that was read. -/
def andThen (d : Deserialize E T) (g : T → Except E U) : Deserialize E U where
  shape := d.shape
  visit handout :=
    match d.visit handout with
    | .error e => .error e
    | .ok t =>
      match g t with
      | .error e => .error (.custom e)
      | .ok u => .ok u

/-- `&str`: its visitor takes lent bytes too, if they are a string. -/
def borrowedStr : Deserialize E (List UInt8) where
  shape := .str
  visit
    | .borrowedStr s => .ok s
    | .borrowedBytes bs =>
      if (ByteArray.mk bs.toArray).IsValidUTF8 then .ok bs else .error .invalidType
    | _ => .error .invalidType

/-- `&[u8]`. -/
def borrowedBytes : Deserialize E (List UInt8) where
  shape := .bytes
  visit
    | .borrowedBytes bs => .ok bs
    | .borrowedStr s => .ok s
    | _ => .error .invalidType

/-- `[u8; n]`: a tuple of `n` items. -/
def array (n : ℕ) : Deserialize E { bs : List UInt8 // bs.length = n } where
  shape := .tuple n
  visit
    | .seq items =>
      if h : n ≤ items.length then .ok ⟨items.take n, List.length_take_of_le h⟩
      else .error (.invalidLength items.length)
    | _ => .error .invalidType

/-- Where a faithful format is asked for the shape of what it wrote, a visitor that takes the lent
value only reads it back exactly if the format lends. -/
theorem run_andThen_iff {f : Format} {v : Value} {d : Deserialize E U} {u : U}
    (hfaithful : f.request (f.emit v) v.shape = some v.borrowed ∨
      f.request (f.emit v) v.shape = some v.owned)
    (hshape : d.shape = v.shape) (hborrowed : d.visit v.borrowed = .ok u)
    (howned : ∀ w, d.visit v.owned ≠ .ok w) {g : U → Except E T} {t : T} :
    (d.andThen g).run f (f.emit v) = .ok t ↔ f.Lends v ∧ g u = .ok t := by
  have hread : ∀ handout, f.request (f.emit v) v.shape = some handout →
      (d.andThen g).run f (f.emit v) = (d.andThen g).visit handout := by
    intro handout hrequest
    unfold run
    rw [show (d.andThen g).shape = v.shape from hshape, hrequest]
  rcases hfaithful with hlends | hcopies
  · rw [hread _ hlends]
    simp only [andThen, hborrowed]
    constructor
    · intro h
      refine ⟨hlends, ?_⟩
      cases hg : g u with
      | error e =>
        rw [hg] at h
        cases h
      | ok w =>
        rw [hg] at h
        cases h
        rfl
    · rintro ⟨-, hg⟩
      rw [hg]
  · have hne : v.owned ≠ v.borrowed := fun heq => howned u (heq ▸ hborrowed)
    rw [hread _ hcopies]
    refine iff_of_false (fun h => ?_) fun h => ?_
    · simp only [andThen] at h
      cases hvisit : d.visit v.owned with
      | error e =>
        rw [hvisit] at h
        cases h
      | ok w => exact howned w hvisit
    · have hboth := hcopies.symm.trans h.1
      exact hne (Option.some.inj hboth)

theorem run_borrowedStr_iff {f : Format} {s : List UInt8} (hlength : s.length < 2 ^ 64)
    {g : List UInt8 → Except E T} {t : T} :
    (borrowedStr.andThen g).run f (f.emit (.str s)) = .ok t ↔ f.Lends (.str s) ∧ g s = .ok t :=
  run_andThen_iff (f.faithful (.str s) hlength fun _ bs h => by cases h) rfl rfl
    fun _ h => by cases h

theorem run_borrowedBytes_iff {f : Format} (hbinary : f.humanReadable = false) {bs : List UInt8}
    (hlength : bs.length < 2 ^ 64) {g : List UInt8 → Except E T} {t : T} :
    (borrowedBytes.andThen g).run f (f.emit (.bytes bs)) = .ok t ↔
      f.Lends (.bytes bs) ∧ g bs = .ok t := by
  have htext : f.humanReadable = true → ∀ bs', Value.bytes bs ≠ .bytes bs' := by
    intro h
    rw [hbinary] at h
    cases h
  exact run_andThen_iff (f.faithful (.bytes bs) hlength htext) rfl rfl fun _ h => by cases h

/-- An array asked for where a byte string was written is the prefix and what follows it. -/
theorem run_array_of_prefixesLengths {f : Format} {lengthPrefix : ℕ → List UInt8}
    (hf : f.PrefixesLengths lengthPrefix) {n : ℕ} {bs : List UInt8} (hbs : bs.length = n) :
    ∃ h, (array n : Deserialize E _).run f (f.emit (.bytes bs))
      = .ok ⟨(lengthPrefix n ++ bs).take n, h⟩ := by
  subst hbs
  have hn : bs.length ≤ (lengthPrefix bs.length ++ bs).length := by
    rw [List.length_append]
    omega
  refine ⟨List.length_take_of_le hn, ?_⟩
  have hlength : bs.length ≤ ((lengthPrefix bs.length ++ bs).take bs.length).length := by
    rw [List.length_take_of_le hn]
  unfold run
  rw [show (array bs.length : Deserialize E _).shape = Shape.tuple bs.length from rfl, hf bs _ hn]
  simp only [array]
  rw [dif_pos hlength]
  congr 2
  rw [List.take_take, min_self]

/-- Going on with a value that is read. -/
theorem run_andThen_of_run {f : Format} {d : Deserialize E U} {output : f.Output} {u : U}
    (h : d.run f output = .ok u) (g : U → Except E T) :
    (d.andThen g).run f output =
      match g u with
      | .error e => .error (.custom e)
      | .ok t => .ok t := by
  unfold run at h ⊢
  rw [show (d.andThen g).shape = d.shape from rfl]
  split at h
  · cases h
  next handout hrequest => simp only [andThen, h]

end Deserialize

/-- A type with its `Serialize` and its `Deserialize`, for text and for binary formats. -/
class SerdeType (T : Type) where
  Err : Type
  serialize : (humanReadable : Bool) → T → Value
  deserialize : (humanReadable : Bool) → Deserialize Err T

section Formats

variable (f : Format) (T : Type) [SerdeType T]

/-- What the type asks the format for. -/
def requestedShape : Shape :=
  (SerdeType.deserialize f.humanReadable : Deserialize (SerdeType.Err T) T).shape

/-- The type written by the format. -/
def toOutput {T : Type} [SerdeType T] (t : T) : f.Output :=
  f.emit (SerdeType.serialize f.humanReadable t)

/-- The type read by the format. -/
def fromOutput (output : f.Output) : Except (Error (SerdeType.Err T)) T :=
  (SerdeType.deserialize f.humanReadable : Deserialize (SerdeType.Err T) T).run f output

/-- A value comes back, and the deserializer asks for the shape that the serializer emitted. -/
structure RoundTrips {T : Type} [SerdeType T] (t : T) : Prop where
  same_shape : requestedShape f T = (SerdeType.serialize f.humanReadable t).shape
  round_trip : fromOutput f T (toOutput f t) = .ok t

end Formats

theorem roundTrips_iff {f : Format} {T : Type} [SerdeType T] {t : T} :
    RoundTrips f t ↔ requestedShape f T = (SerdeType.serialize f.humanReadable t).shape ∧
      fromOutput f T (toOutput f t) = .ok t :=
  ⟨fun h => ⟨h.1, h.2⟩, fun h => ⟨h.1, h.2⟩⟩

end Serde
