/-
# Hexadecimal

A small library about hexadecimal text, as the `hex` crate writes and reads it: two lower
case digits for a byte, digits of both cases read.  It names nothing of any program.  Text
is the list of its bytes.
-/
import Mathlib

namespace Hex

/-- `hex::FromHexError`. -/
inductive FromHexError where
  | invalidHexCharacter (c : UInt8) (index : ℕ)
  | oddLength
  | invalidStringLength
  deriving DecidableEq

/-! ## Writing -/

/-- The digit of a number below 16. -/
def digit (n : UInt8) : UInt8 := if n < 10 then 48 + n else 87 + n

def encode : List UInt8 → List UInt8
  | [] => []
  | b :: bs => digit (b >>> 4) :: digit (b &&& 15) :: encode bs

/-! ## Reading -/

/-- The number of a digit, of either case. -/
def val (c : UInt8) (index : ℕ) : Except FromHexError UInt8 :=
  if 65 ≤ c ∧ c ≤ 70 then .ok (c - 65 + 10)
  else if 97 ≤ c ∧ c ≤ 102 then .ok (c - 97 + 10)
  else if 48 ≤ c ∧ c ≤ 57 then .ok (c - 48)
  else .error (.invalidHexCharacter c index)

/-- The bytes of pairs of digits, from the given index on. -/
def decodePairs : ℕ → List UInt8 → Except FromHexError (List UInt8)
  | _, [] => .ok []
  | _, [_] => .ok []
  | index, hi :: lo :: data => do
    let hi ← val hi index
    let lo ← val lo (index + 1)
    let bytes ← decodePairs (index + 2) data
    .ok ((hi <<< 4 ||| lo) :: bytes)

/-- `hex::decode_to_slice` into a slice of `n` bytes. -/
def decodeToSlice (n : ℕ) (data : List UInt8) : Except FromHexError (List UInt8) :=
  if data.length % 2 ≠ 0 then .error .oddLength
  else if data.length / 2 ≠ n then .error .invalidStringLength
  else decodePairs 0 data

/-! ## Lengths and the round trip -/

@[simp] theorem length_encode (bs : List UInt8) : (encode bs).length = 2 * bs.length := by
  induction bs with
  | nil => rfl
  | cons b bs ih =>
    rw [encode, List.length_cons, List.length_cons, List.length_cons, ih]
    omega

theorem length_decodePairs {index : ℕ} {data bytes : List UInt8}
    (h : decodePairs index data = .ok bytes) : bytes.length = data.length / 2 := by
  induction index, data using decodePairs.induct generalizing bytes with
  | case1 index =>
    cases h
    rfl
  | case2 index c =>
    cases h
    simp
  | case3 index hi lo data ih =>
    rw [decodePairs] at h
    cases hhi : val hi index with
    | error e => simp [hhi, bind, Except.bind] at h
    | ok x =>
      cases hlo : val lo (index + 1) with
      | error e => simp [hhi, hlo, bind, Except.bind] at h
      | ok y =>
        cases hrest : decodePairs (index + 2) data with
        | error e => simp [hhi, hlo, hrest, bind, Except.bind] at h
        | ok rest =>
          simp only [hhi, hlo, hrest, bind, Except.bind, Except.ok.injEq] at h
          rw [← h, List.length_cons, ih hrest, List.length_cons, List.length_cons]
          omega

theorem length_decodeToSlice {n : ℕ} {data bytes : List UInt8}
    (h : decodeToSlice n data = .ok bytes) : bytes.length = n := by
  unfold decodeToSlice at h
  split at h
  · cases h
  · split at h
    · cases h
    next hlength =>
      rw [length_decodePairs h]
      exact not_not.mp hlength

theorem val_digit {n : UInt8} (hn : n < 16) (index : ℕ) : val (digit n) index = .ok n := by
  have hlt : n.toNat < 16 := UInt8.lt_iff_toNat_lt.mp hn
  have hofNat : UInt8.ofNat n.toNat = n := UInt8.ofNat_toNat
  rw [← hofNat]
  generalize n.toNat = k at hlt
  interval_cases k <;> rfl

/-- A byte is made of the two numbers that its digits stand for. -/
theorem nibbles (b : UInt8) :
    b >>> 4 < 16 ∧ b &&& 15 < 16 ∧ (b >>> 4) <<< 4 ||| (b &&& 15) = b := by
  have hall : ∀ n < 256, UInt8.ofNat n >>> 4 < 16 ∧ UInt8.ofNat n &&& 15 < 16 ∧
      (UInt8.ofNat n >>> 4) <<< 4 ||| (UInt8.ofNat n &&& 15) = UInt8.ofNat n := by
    decide +kernel
  have hb := hall b.toNat b.toNat_lt
  rwa [UInt8.ofNat_toNat] at hb

/-- **Round trip**: what was written is read back. -/
theorem decodePairs_encode (index : ℕ) (bs : List UInt8) :
    decodePairs index (encode bs) = .ok bs := by
  induction bs generalizing index with
  | nil => rfl
  | cons b bs ih =>
    obtain ⟨hhi, hlo, hb⟩ := nibbles b
    rw [encode, decodePairs, val_digit hhi, val_digit hlo, ih]
    show Except.ok (((b >>> 4) <<< 4 ||| (b &&& 15)) :: bs) = _
    rw [hb]

theorem decodeToSlice_encode {n : ℕ} {bs : List UInt8} (h : bs.length = n) :
    decodeToSlice n (encode bs) = .ok bs := by
  unfold decodeToSlice
  rw [length_encode, h, if_neg (by omega), if_neg (by omega)]
  exact decodePairs_encode 0 bs

end Hex
