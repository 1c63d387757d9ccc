/-
# Fixed-width byte encodings

A small library about byte strings that are put together from parts of known
width: little-endian integers, concatenations and lists of equally long items.
It names nothing of any program.  The facts are the ones a signature preimage or
a wire format needs: how long an encoding is, and that parts of equal width can
be read back, so that the encoding is injective.
-/
import Mathlib

namespace ByteEncoding

/-! ## Little-endian integers -/

/-- The `k` low bytes of `n`, least significant first. -/
def leBytes : ℕ → ℕ → List UInt8
  | 0, _ => []
  | k + 1, n => UInt8.ofNat n :: leBytes k (n / 256)

@[simp] theorem length_leBytes (k n : ℕ) : (leBytes k n).length = k := by
  induction k generalizing n with
  | zero => rfl
  | succ k ih => rw [leBytes, List.length_cons, ih]

theorem uint8_ofNat_eq_iff (a b : ℕ) : UInt8.ofNat a = UInt8.ofNat b ↔ a % 256 = b % 256 := by
  rw [← UInt8.toNat_inj, UInt8.toNat_ofNat', UInt8.toNat_ofNat']

/-- Numbers that fit the width are determined by their bytes. -/
theorem leBytes_inj {k a b : ℕ} (ha : a < 256 ^ k) (hb : b < 256 ^ k)
    (h : leBytes k a = leBytes k b) : a = b := by
  induction k generalizing a b with
  | zero => rw [pow_zero] at ha hb; omega
  | succ k ih =>
    rw [leBytes, leBytes, List.cons.injEq, uint8_ofNat_eq_iff] at h
    rw [pow_succ] at ha hb
    have hdiv : a / 256 = b / 256 :=
      ih (Nat.div_lt_of_lt_mul (by omega)) (Nat.div_lt_of_lt_mul (by omega)) h.2
    have hmod := h.1
    omega

theorem leBytes_uint64_inj {a b : UInt64} (h : leBytes 8 a.toNat = leBytes 8 b.toNat) : a = b :=
  UInt64.toNat_inj.mp (leBytes_inj a.toNat_lt b.toNat_lt h)

/-- The number whose little-endian bytes are given. -/
def leValue : List UInt8 → ℕ
  | [] => 0
  | b :: bs => b.toNat + 256 * leValue bs

theorem leValue_lt (bs : List UInt8) : leValue bs < 256 ^ bs.length := by
  induction bs with
  | nil => exact Nat.one_pos
  | cons b bs ih =>
    rw [leValue, List.length_cons, pow_succ]
    have hb := b.toNat_lt
    omega

/-- Reading back a number that fits the width. -/
theorem leValue_leBytes {k n : ℕ} (h : n < 256 ^ k) : leValue (leBytes k n) = n := by
  induction k generalizing n with
  | zero =>
    rw [pow_zero] at h
    rw [leBytes, leValue]
    omega
  | succ k ih =>
    rw [pow_succ] at h
    rw [leBytes, leValue, ih (Nat.div_lt_of_lt_mul (by omega)), UInt8.toNat_ofNat']
    omega

/-- Writing what was read gives the bytes that were read. -/
theorem leBytes_leValue (bs : List UInt8) : leBytes bs.length (leValue bs) = bs := by
  induction bs with
  | nil => rfl
  | cons b bs ih =>
    have hb := b.toNat_lt
    have hdiv : (b.toNat + 256 * leValue bs) / 256 = leValue bs := by omega
    have hmod : UInt8.ofNat (b.toNat + 256 * leValue bs) = b := by
      rw [← UInt8.toNat_inj, UInt8.toNat_ofNat']
      omega
    rw [List.length_cons, leValue, leBytes, hdiv, hmod, ih]

/-! ## Concatenation -/

/-- Parts of equal width at the front of two equal strings are equal. -/
theorem append_left_inj {a b s t : List UInt8} (hlen : a.length = b.length)
    (h : a ++ s = b ++ t) : a = b ∧ s = t :=
  List.append_inj h hlen

/-- Lists of equally long items are determined by their concatenation. -/
theorem flatMap_inj {α : Type*} {f : α → List UInt8} {w : ℕ} (hw : 0 < w)
    (hlen : ∀ x, (f x).length = w) (hinj : Function.Injective f) {xs ys : List α}
    (h : xs.flatMap f = ys.flatMap f) : xs = ys := by
  induction xs generalizing ys with
  | nil =>
    cases ys with
    | nil => rfl
    | cons y ys =>
      have := congrArg List.length h
      simp only [List.flatMap_nil, List.length_nil, List.flatMap_cons, List.length_append,
        hlen] at this
      omega
  | cons x xs ih =>
    cases ys with
    | nil =>
      have := congrArg List.length h
      simp only [List.flatMap_nil, List.length_nil, List.flatMap_cons, List.length_append,
        hlen] at this
      omega
    | cons y ys =>
      rw [List.flatMap_cons, List.flatMap_cons] at h
      obtain ⟨hxy, hrest⟩ := append_left_inj ((hlen x).trans (hlen y).symm) h
      rw [hinj hxy, ih hrest]

theorem length_flatMap_of_const {α : Type*} {f : α → List UInt8} {w : ℕ}
    (hlen : ∀ x, (f x).length = w) (xs : List α) : (xs.flatMap f).length = w * xs.length := by
  induction xs with
  | nil => rfl
  | cons x xs ih =>
    rw [List.flatMap_cons, List.length_append, hlen, ih, List.length_cons, Nat.mul_succ,
      Nat.add_comm]

end ByteEncoding
