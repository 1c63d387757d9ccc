/-
# Iteration over the keys of a schema

The iterator of `crates/database/src/rocksdb.rs`.  RocksDB walks a column family in
lexicographic byte order, and a seek starts at the first key at or beyond the given
bytes; the key codec is borsh, which writes integers least significant byte first.
Iteration follows the order of the keys exactly where this encoding happens to
compare as the keys do.
-/
import Tonic.Transaction

namespace Tonic

open ByteEncoding RelatedLists

/-- An integer type with the encoding that borsh documents: little-endian, of a fixed width, in
two's complement. -/
class BorshInteger (K : Type) [BorshSerialize K] [BorshDeserialize K] [BorshFits K] extends
    LawfulBorsh K where
  width : ℕ
  toInt : K → ℤ
  toInt_injective : Function.Injective toInt
  serialize_eq : ∀ k : K, serialize k = leBytes width (toInt k % 256 ^ width).toNat
  fits_eq : ∀ k : K, fits k = true

export BorshInteger (toInt)

instance : BorshInteger UInt64 where
  width := 8
  toInt k := k.toNat
  toInt_injective _ _ h := UInt64.toNat_inj.mp (Int.ofNat_inj.mp h)
  serialize_eq k := by
    have hk : ((k.toNat : ℤ) % 256 ^ 8).toNat = k.toNat := by
      have hlt : k.toNat < 256 ^ 8 := k.toNat_lt
      rw [Int.emod_eq_of_lt (by omega) (by exact_mod_cast hlt), Int.toNat_natCast]
    rw [hk, serialize_uint64]
  fits_eq _ := rfl

/-- `kv_store::IteratorMode`. -/
inductive IteratorMode (S : Schema) where
  | start
  | «end»
  | forward (key : S.Key)
  | reverse (key : S.Key)

/-- `rocksdb::IteratorMode`. -/
inductive RocksIteratorMode where
  | start
  | «end»
  | fromForward (key : Bytes)
  | fromReverse (key : Bytes)

namespace RocksDB

/-- The walk of RocksDB over a column family. -/
def rawIterator (db : RocksDB) (schema : SchemaName) (mode : RocksIteratorMode) :
    Option (List (Bytes × Bytes)) := do
  let cf ← db.cfHandle schema
  match mode with
  | .start => some cf.toList
  | .«end» => some cf.toList.reverse
  | .fromForward key => some (cf.toList.dropWhile fun e => decide (compare e.1 key = .lt))
  | .fromReverse key => some (cf.toList.reverse.dropWhile fun e => decide (compare e.1 key = .gt))

/-- The mode of RocksDB for a mode over typed keys. -/
def rocksMode {S : Schema} : IteratorMode S → Option RocksIteratorMode
  | .start => some .start
  | .«end» => some .«end»
  | .forward key => do
    let keyBytes ← toVec key
    some (.fromForward keyBytes)
  | .reverse key => do
    let keyBytes ← toVec key
    some (.fromReverse keyBytes)

/-- `codec::deserialize` of a key and its value. -/
def decodeEntry {K V : Type} [BorshDeserialize K] [BorshDeserialize V] (entry : Bytes × Bytes) :
    Option (K × V) := do
  let key ← fromSlice entry.1
  let value ← fromSlice entry.2
  some (key, value)

/-- All items the iterator yields. -/
def iterator (db : RocksDB) (S : Schema) (mode : IteratorMode S) :
    Option (List (S.Key × S.Value)) := do
  let mode ← rocksMode mode
  let items ← db.rawIterator S.name mode
  items.mapM decodeEntry

/-! ## The order of iteration -/

/-- The schema is known and what is stored in it decodes. -/
def TypedAt (db : RocksDB) (S : Schema) : Prop :=
  ∃ cf, db.cfHandle S.name = some cf ∧ ∀ e ∈ cf.toList,
    ∃ entry : S.Key × S.Value, decodeEntry e = some entry

/-- The key has a value. -/
def Stores (db : RocksDB) (S : Schema) (key : S.Key) : Prop :=
  ∃ value, db.get S key = some (some value)

/-- The four modes follow the order of the keys. -/
def FollowsKeyOrder (db : RocksDB) (S : Schema) [BorshInteger S.Key] (k : S.Key) : Prop :=
  ∃ entries : List (S.Key × S.Value),
    entries.Pairwise (fun a b => toInt a.1 < toInt b.1) ∧
    (∀ key value, (key, value) ∈ entries ↔ db.get S key = some (some value)) ∧
    db.iterator S .start = some entries ∧
    db.iterator S .«end» = some entries.reverse ∧
    db.iterator S (.forward k) = some (entries.filter fun e => decide (toInt k ≤ toInt e.1)) ∧
    db.iterator S (.reverse k)
      = some (entries.filter fun e => decide (toInt e.1 ≤ toInt k)).reverse

/-- The encodings of two keys compare as the keys do. -/
def EncodedInOrder {K : Type} [BorshSerialize K] [BorshDeserialize K] [BorshFits K]
    [BorshInteger K] (a b : K) : Prop :=
  compare (serialize a) (serialize b) = compare (toInt a) (toInt b)

end RocksDB

namespace RocksDB

section Order

variable {db : RocksDB} {S : Schema} {cf : BTreeMap Bytes} {entries : List (S.Key × S.Value)}

theorem decodeEntry_eq_some_iff [LawfulBorsh S.Key] {e : Bytes × Bytes}
    {entry : S.Key × S.Value} :
    decodeEntry e = some entry ↔ toVec entry.1 = some e.1 ∧ fromSlice e.2 = some entry.2 := by
  rw [← LawfulBorsh.fromSlice_eq_some_iff, decodeEntry]
  constructor
  · intro h
    obtain ⟨key, hkey, hrest⟩ := Option.bind_eq_some_iff.mp h
    obtain ⟨value, hvalue, hsome⟩ := Option.bind_eq_some_iff.mp hrest
    obtain rfl := Option.some.inj hsome
    exact ⟨hkey, hvalue⟩
  · rintro ⟨hkey, hvalue⟩
    rw [hkey, Option.bind_eq_bind, Option.bind_some, hvalue]
    rfl

/-- The entries of a column family, in the order of its bytes. -/
def Lists (db : RocksDB) (S : Schema) (cf : BTreeMap Bytes) (entries : List (S.Key × S.Value)) :
    Prop :=
  db.cfHandle S.name = some cf ∧
    List.Forall₂ (fun e (entry : S.Key × S.Value) => decodeEntry e = some entry) cf.toList entries

theorem exists_lists (htyped : db.TypedAt S) : ∃ cf entries, db.Lists S cf entries := by
  obtain ⟨cf, hcf, hdecode⟩ := htyped
  obtain ⟨entries, hentries⟩ := exists_forall₂ hdecode
  exact ⟨cf, entries, hcf, hentries⟩

variable [BorshInteger S.Key]

theorem Lists.serialize_eq (h : db.Lists S cf entries) :
    List.Forall₂ (fun e (entry : S.Key × S.Value) => e.1 = serialize entry.1) cf.toList
      entries :=
  h.2.imp fun _ _ hdecode => ((toVec_eq_some_iff _ _).mp (decodeEntry_eq_some_iff.mp hdecode).1).2

/-- The entries ascend bytewise. -/
theorem Lists.pairwise (h : db.Lists S cf entries) :
    entries.Pairwise fun a b => compare (serialize a.1) (serialize b.1) = .lt := by
  have hkeys : cf.toList.map Prod.fst = entries.map fun entry => serialize entry.1 := by
    have heq : List.Forall₂ Eq (cf.toList.map Prod.fst)
        (entries.map fun entry => serialize entry.1) := by
      rw [List.forall₂_map_left_iff, List.forall₂_map_right_iff]
      exact h.serialize_eq
    rwa [List.forall₂_eq_eq_eq] at heq
  have hsorted : (cf.toList.map Prod.fst).Pairwise fun a b => compare a b = .lt :=
    List.pairwise_map.mpr Std.ExtTreeMap.ordered_keys_toList
  rw [hkeys] at hsorted
  exact List.pairwise_map.mp hsorted

/-- What is listed is what single reads find. -/
theorem Lists.mem_iff (h : db.Lists S cf entries) {key : S.Key} {value : S.Value} :
    (key, value) ∈ entries ↔ db.get S key = some (some value) := by
  have hget : db.get S key = decodeFound cf[serialize key]? := by
    have hkey : toVec key = some (serialize key) :=
      (toVec_eq_some_iff _ _).mpr ⟨BorshInteger.fits_eq key, rfl⟩
    rw [get, hkey, Option.bind_eq_bind, Option.bind_some, rawGet, h.1]
    rfl
  rw [hget]
  constructor
  · intro hmem
    obtain ⟨e, he, hdecode⟩ := exists_mem_left_of_forall₂ h.2 hmem
    obtain ⟨hkey, hvalue⟩ := decodeEntry_eq_some_iff.mp hdecode
    have hfound := Std.ExtTreeMap.mem_toList_iff_getElem?_eq_some.mp he
    rw [((toVec_eq_some_iff _ _).mp hkey).2] at hfound
    rw [hfound, decodeFound, hvalue]
    rfl
  · intro hfound
    cases hbytes : cf[serialize key]? with
    | none =>
      rw [hbytes] at hfound
      cases Option.some.inj hfound
    | some valueBytes =>
      rw [hbytes, decodeFound, Option.map_eq_some_iff] at hfound
      obtain ⟨value', hvalue, heq⟩ := hfound
      obtain rfl := Option.some.inj heq
      have hmem : (serialize key, valueBytes) ∈ cf.toList :=
        Std.ExtTreeMap.mem_toList_iff_getElem?_eq_some.mpr hbytes
      obtain ⟨entry, hentry, hdecode⟩ := exists_mem_right_of_forall₂ h.2 hmem
      have hdecode' : decodeEntry (serialize key, valueBytes) = some (key, value') :=
        decodeEntry_eq_some_iff.mpr
          ⟨(toVec_eq_some_iff _ _).mpr ⟨BorshInteger.fits_eq key, rfl⟩, hvalue⟩
      rw [hdecode] at hdecode'
      rwa [Option.some.inj hdecode'] at hentry

omit [BorshInteger S.Key] in
theorem Lists.iterator_start (h : db.Lists S cf entries) :
    db.iterator S .start = some entries := by
  show (db.rawIterator S.name .start).bind _ = _
  rw [rawIterator, h.1]
  exact mapM_eq_some_iff_forall₂.mpr h.2

omit [BorshInteger S.Key] in
theorem Lists.iterator_end (h : db.Lists S cf entries) :
    db.iterator S .«end» = some entries.reverse := by
  show (db.rawIterator S.name .«end»).bind _ = _
  rw [rawIterator, h.1]
  exact mapM_eq_some_iff_forall₂.mpr (List.forall₂_reverse_iff.mpr h.2)

/-- Filtering by bytes is filtering by the encodings of the keys. -/
theorem Lists.filter (h : db.Lists S cf entries) (p : Bytes → Bool) :
    List.Forall₂ (fun e (entry : S.Key × S.Value) => decodeEntry e = some entry)
      (cf.toList.filter fun e => p e.1) (entries.filter fun entry => p (serialize entry.1)) := by
  apply List.rel_filter _ h.2
  intro e entry hdecode
  have hkey := ((toVec_eq_some_iff _ _).mp (decodeEntry_eq_some_iff.mp hdecode).1).2
  show p e.1 = true ↔ p (serialize entry.1) = true
  rw [hkey]

/-- A forward seek yields what is bytewise at or above the key. -/
theorem Lists.iterator_forward (h : db.Lists S cf entries) (k : S.Key) :
    db.iterator S (.forward k)
      = some (entries.filter fun e => !decide (compare (serialize e.1) (serialize k) = .lt)) := by
  have hk : toVec k = some (serialize k) :=
    (toVec_eq_some_iff _ _).mpr ⟨BorshInteger.fits_eq k, rfl⟩
  have hskip : cf.toList.dropWhile (fun e => decide (compare e.1 (serialize k) = .lt))
      = cf.toList.filter fun e => !decide (compare e.1 (serialize k) = .lt) := by
    apply dropWhile_eq_filter_of_pairwise
    refine Std.ExtTreeMap.ordered_keys_toList.imp ?_
    intro a b hab hb
    rw [decide_eq_true_iff] at hb ⊢
    exact Std.TransCmp.lt_trans hab hb
  show (rocksMode (.forward k)).bind _ = _
  rw [rocksMode, hk, Option.bind_eq_bind, Option.bind_some, Option.bind_some]
  show (db.rawIterator S.name (.fromForward (serialize k))).bind _ = _
  rw [rawIterator, h.1]
  show (cf.toList.dropWhile _).mapM decodeEntry = _
  rw [hskip]
  exact mapM_eq_some_iff_forall₂.mpr
    (h.filter fun b => !decide (compare b (serialize k) = .lt))

/-- A reverse seek yields what is bytewise at or below the key. -/
theorem Lists.iterator_reverse (h : db.Lists S cf entries) (k : S.Key) :
    db.iterator S (.reverse k)
      = some (entries.filter fun e =>
          !decide (compare (serialize e.1) (serialize k) = .gt)).reverse := by
  have hk : toVec k = some (serialize k) :=
    (toVec_eq_some_iff _ _).mpr ⟨BorshInteger.fits_eq k, rfl⟩
  have hskip : cf.toList.reverse.dropWhile (fun e => decide (compare e.1 (serialize k) = .gt))
      = (cf.toList.filter fun e => !decide (compare e.1 (serialize k) = .gt)).reverse := by
    rw [← List.filter_reverse]
    apply dropWhile_eq_filter_of_pairwise
    refine List.pairwise_reverse.mpr (Std.ExtTreeMap.ordered_keys_toList.imp ?_)
    intro a b hab ha
    rw [decide_eq_true_iff] at ha ⊢
    exact Std.TransCmp.gt_trans (Std.OrientedCmp.gt_of_lt hab) ha
  show (rocksMode (.reverse k)).bind _ = _
  rw [rocksMode, hk, Option.bind_eq_bind, Option.bind_some, Option.bind_some]
  show (db.rawIterator S.name (.fromReverse (serialize k))).bind _ = _
  rw [rawIterator, h.1]
  show (cf.toList.reverse.dropWhile _).mapM decodeEntry = _
  rw [hskip]
  exact mapM_eq_some_iff_forall₂.mpr (List.forall₂_reverse_iff.mpr
    (h.filter fun b => !decide (compare b (serialize k) = .gt)))

end Order

/-! ## Encodings that compare as the keys do -/

section EncodedInOrder

variable {K : Type} [BorshSerialize K] [BorshDeserialize K] [BorshFits K] [BorshInteger K]

theorem EncodedInOrder.symm {a b : K} (h : EncodedInOrder a b) : EncodedInOrder b a := by
  have hbytes : compare (serialize b) (serialize a) = (compare (serialize a) (serialize b)).swap :=
    Std.OrientedCmp.eq_swap
  have hkeys : compare (toInt b) (toInt a) = (compare (toInt a) (toInt b)).swap :=
    Std.OrientedCmp.eq_swap
  rw [EncodedInOrder, hbytes, h, hkeys]

theorem EncodedInOrder.refl (a : K) : EncodedInOrder a a := by
  have hbytes : compare (serialize a) (serialize a) = .eq := Std.ReflCmp.compare_self
  have hkeys : compare (toInt a) (toInt a) = .eq := Std.ReflCmp.compare_self
  rw [EncodedInOrder, hbytes, hkeys]

theorem encodedInOrder_of_lt {a b : K} (hbytes : compare (serialize a) (serialize b) = .lt)
    (hkeys : toInt a < toInt b) : EncodedInOrder a b := by
  rw [EncodedInOrder, hbytes, compare_lt_iff_lt.mpr hkeys]

/-- Seeks from a key split the others as the key does. -/
theorem encodedInOrder_iff_seek {a k : K} :
    EncodedInOrder a k ↔
      (compare (serialize a) (serialize k) ≠ .lt ↔ toInt k ≤ toInt a) ∧
        (compare (serialize a) (serialize k) ≠ .gt ↔ toInt a ≤ toInt k) := by
  rw [EncodedInOrder]
  rcases lt_trichotomy (toInt a) (toInt k) with hlt | heq | hgt
  · rw [compare_lt_iff_lt.mpr hlt]
    cases compare (serialize a) (serialize k) <;> simp <;> omega
  · rw [compare_eq_iff_eq.mpr heq]
    cases compare (serialize a) (serialize k) <;> simp <;> omega
  · rw [compare_gt_iff_gt.mpr hgt]
    cases compare (serialize a) (serialize k) <;> simp <;> omega

/-- Keys of a single byte are encoded in order. -/
theorem encodedInOrder_of_byte {a b : K} (ha0 : 0 ≤ toInt a) (ha : toInt a < 256)
    (hb0 : 0 ≤ toInt b) (hb : toInt b < 256) : EncodedInOrder a b := by
  have hser := BorshInteger.serialize_eq (K := K)
  cases hwidth : BorshInteger.width K with
  | zero =>
    -- without bytes there is one key
    have hnil : serialize a = serialize b := by rw [hser a, hser b, hwidth, leBytes, leBytes]
    have hab : a = b := by
      have hread : ∀ k : K, fromSlice (serialize k) = some k := fun k =>
        LawfulBorsh.fromSlice_eq_some_iff.mpr
          ((toVec_eq_some_iff _ _).mpr ⟨BorshInteger.fits_eq k, rfl⟩)
      have ha' := hread a
      rw [hnil, hread b] at ha'
      exact (Option.some.inj ha').symm
    rw [hab]
    exact EncodedInOrder.refl b
  | succ w =>
    have hone : ∀ k : K, 0 ≤ toInt k → toInt k < 256 →
        serialize k = UInt8.ofNat (toInt k).toNat :: leBytes w 0 := by
      intro k hk0 hk
      have hpow : (256 : ℤ) ≤ 256 ^ (w + 1) := by
        exact_mod_cast Nat.le_self_pow (Nat.succ_ne_zero w) 256
      rw [hser k, hwidth, Int.emod_eq_of_lt hk0 (by omega), leBytes,
        Nat.div_eq_of_lt (by omega)]
    rw [EncodedInOrder, hone a ha0 ha, hone b hb0 hb, List.compare_eq_compareLex,
      List.compareLex_cons_cons, ← List.compare_eq_compareLex]
    have htail : compare (leBytes w 0) (leBytes w 0) = .eq := Std.ReflCmp.compare_self
    rw [htail, Ordering.then_eq, UInt8.compare_eq_toNat_compare_toNat, UInt8.toNat_ofNat',
      UInt8.toNat_ofNat', Nat.mod_eq_of_lt (by omega), Nat.mod_eq_of_lt (by omega)]
    rcases lt_trichotomy (toInt a) (toInt b) with hlt | heq | hgt
    · rw [compare_lt_iff_lt.mpr hlt, compare_lt_iff_lt]
      omega
    · rw [compare_eq_iff_eq.mpr heq, compare_eq_iff_eq, heq]
    · rw [compare_gt_iff_gt.mpr hgt, compare_gt_iff_gt]
      omega

end EncodedInOrder

theorem lists_of_iterator_start {db : RocksDB} {S : Schema} {entries : List (S.Key × S.Value)}
    (hstart : db.iterator S .start = some entries) : ∃ cf, db.Lists S cf entries := by
  obtain ⟨items, hitems, hdecode⟩ := Option.bind_eq_some_iff.mp hstart
  obtain ⟨cf, hcf, hsome⟩ := Option.bind_eq_some_iff.mp hitems
  obtain rfl := Option.some.inj hsome
  exact ⟨cf, hcf, mapM_eq_some_iff_forall₂.mp hdecode⟩

/-- A schema that can be iterated is typed. -/
theorem typedAt_of_iterator_start {db : RocksDB} {S : Schema} {entries : List (S.Key × S.Value)}
    (hstart : db.iterator S .start = some entries) : db.TypedAt S := by
  obtain ⟨cf, hcf, hdecode⟩ := lists_of_iterator_start hstart
  refine ⟨cf, hcf, fun e he => ?_⟩
  obtain ⟨entry, -, hentry⟩ := exists_mem_right_of_forall₂ hdecode he
  exact ⟨entry, hentry⟩

/-- What is stored is what iteration from the start yields. -/
theorem stores_iff_of_iterator_start {db : RocksDB} {S : Schema} [BorshInteger S.Key]
    {entries : List (S.Key × S.Value)} (hstart : db.iterator S .start = some entries) (a : S.Key) :
    db.Stores S a ↔ ∃ e ∈ entries, e.1 = a := by
  obtain ⟨cf, h⟩ := lists_of_iterator_start hstart
  constructor
  · rintro ⟨value, hvalue⟩
    exact ⟨(a, value), h.mem_iff.mpr hvalue, rfl⟩
  · rintro ⟨⟨a', value⟩, hmem, rfl⟩
    exact ⟨value, h.mem_iff.mp hmem⟩

/-- **When iteration follows the order of the keys**: exactly where the encodings of the stored
keys compare with each other, and with the key of a seek, as the keys do. -/
theorem followsKeyOrder_iff {db : RocksDB} {S : Schema} [BorshInteger S.Key]
    (htyped : db.TypedAt S) (k : S.Key) :
    db.FollowsKeyOrder S k ↔
      (∀ a b, db.Stores S a → db.Stores S b → EncodedInOrder a b) ∧
        ∀ a, db.Stores S a → EncodedInOrder a k := by
  obtain ⟨cf, entries, h⟩ := exists_lists htyped
  have hstores := stores_iff_of_iterator_start h.iterator_start
  constructor
  · rintro ⟨entries', hsorted, -, hstart, -, hforward, hreverse⟩
    rw [h.iterator_start] at hstart
    obtain rfl := Option.some.inj hstart
    rw [h.iterator_forward, Option.some.injEq] at hforward
    rw [h.iterator_reverse, Option.some.injEq, List.reverse_inj] at hreverse
    -- the entries ascend both by their bytes and by their keys
    have hpairwise : entries.Pairwise fun a b => EncodedInOrder a.1 b.1 :=
      (hsorted.and h.pairwise).imp fun hab => encodedInOrder_of_lt hab.2 hab.1
    have hsymm : Std.Symm fun a b : S.Key × S.Value => EncodedInOrder a.1 b.1 :=
      ⟨fun _ _ hab => hab.symm⟩
    have hall : ∀ e ∈ entries, ∀ e' ∈ entries, EncodedInOrder e.1 e'.1 := by
      intro e he e' he'
      exact hpairwise.forall_of_forall (fun a _ => EncodedInOrder.refl a.1) he he'
    constructor
    · intro a b ha hb
      obtain ⟨e, he, rfl⟩ := (hstores a).mp ha
      obtain ⟨e', he', rfl⟩ := (hstores b).mp hb
      exact hall e he e' he'
    · intro a ha
      obtain ⟨e, he, rfl⟩ := (hstores a).mp ha
      have hfwd := iff_of_eq (congrArg (e ∈ ·) hforward)
      have hrev := iff_of_eq (congrArg (e ∈ ·) hreverse)
      simp only [List.mem_filter] at hfwd hrev
      simp only [he, true_and, ← decide_not, decide_eq_true_iff] at hfwd hrev
      exact encodedInOrder_iff_seek.mpr ⟨hfwd, hrev⟩
  · rintro ⟨hall, hseek⟩
    have hstored : ∀ e ∈ entries, db.Stores S e.1 := fun e he => (hstores e.1).mpr ⟨e, he, rfl⟩
    refine ⟨entries, ?_, fun _ _ => h.mem_iff, h.iterator_start, h.iterator_end, ?_, ?_⟩
    · refine h.pairwise.imp_of_mem ?_
      intro a b ha hb hbytes
      have hab := hall a.1 b.1 (hstored a ha) (hstored b hb)
      rw [EncodedInOrder, hbytes] at hab
      exact compare_lt_iff_lt.mp hab.symm
    · rw [h.iterator_forward]
      congr 1
      apply List.filter_congr
      intro e he
      have hek := (encodedInOrder_iff_seek.mp (hseek e.1 (hstored e he))).1
      rw [← decide_not]
      exact decide_eq_decide.mpr hek
    · rw [h.iterator_reverse]
      congr 2
      apply List.filter_congr
      intro e he
      have hek := (encodedInOrder_iff_seek.mp (hseek e.1 (hstored e he))).2
      rw [← decide_not]
      exact decide_eq_decide.mpr hek

end RocksDB

/-! ## The schema of the tests -/

/-- The test database with the given keys. -/
def dummyDbOf (keys : List UInt64) : Option RocksDB :=
  Transition.exec RocksDB.mutate dummyDb
    (keys.map fun key => .put dummySchema key (key * 100))

/-- The database of the iterator test. -/
def oneToThree : RocksDB := (dummyDbOf [1, 2, 3]).get (by decide +kernel)

theorem oneToThree_start : oneToThree.iterator dummySchema .start
    = some [((1 : UInt64), (100 : UInt64)), ((2 : UInt64), (200 : UInt64)),
        ((3 : UInt64), (300 : UInt64))] := by
  decide +kernel

/-- A database with a key of more than one byte. -/
def oneAnd256 : RocksDB := (dummyDbOf [1, 256]).get (by decide +kernel)

theorem oneAnd256_start : oneAnd256.iterator dummySchema .start
    = some [((256 : UInt64), (25600 : UInt64)), ((1 : UInt64), (100 : UInt64))] := by
  decide +kernel

/-- On the keys of the test, iteration follows the order of the keys. -/
theorem RocksDB.followsKeyOrder_iff_oneToThree :
    oneToThree.FollowsKeyOrder dummySchema (2 : UInt64) := by
  have hbyte : ∀ a, oneToThree.Stores dummySchema a → 0 ≤ toInt a ∧ toInt a < 256 := by
    intro a ha
    obtain ⟨e, he, rfl⟩ := (stores_iff_of_iterator_start oneToThree_start a).mp ha
    simp only [List.mem_cons, List.not_mem_nil, or_false] at he
    rcases he with rfl | rfl | rfl <;> decide
  refine (followsKeyOrder_iff (typedAt_of_iterator_start oneToThree_start) (2 : UInt64)).mpr
    ⟨?_, ?_⟩
  · intro a b ha hb
    exact encodedInOrder_of_byte (hbyte a ha).1 (hbyte a ha).2 (hbyte b hb).1 (hbyte b hb).2
  · intro a ha
    exact encodedInOrder_of_byte (hbyte a ha).1 (hbyte a ha).2 (by decide) (by decide)

/-- The key 256 comes before the key 1. -/
theorem not_followsKeyOrder_oneAnd256 :
    oneAnd256.TypedAt dummySchema ∧ ¬ oneAnd256.FollowsKeyOrder dummySchema (1 : UInt64) := by
  refine ⟨RocksDB.typedAt_of_iterator_start oneAnd256_start, ?_⟩
  rintro ⟨entries, hsorted, -, hstart, -⟩
  rw [oneAnd256_start] at hstart
  obtain rfl := Option.some.inj hstart
  have h256 := (List.pairwise_cons.mp hsorted).1 _ (List.mem_cons_self)
  revert h256
  decide

end Tonic
