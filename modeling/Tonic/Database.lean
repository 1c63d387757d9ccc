/-
# The key-value database

`crates/database`: schemas, their codec, and `RocksDB`, the wrapper around the
column families of a `rocksdb::DB`.  A call that panics (an unknown schema, bytes
that do not decode) gives `none`; calls of the library underneath succeed.  What the
library promises of its batched lookup holds for ascending keys only and is part of
the parameter `RocksLib`.
-/
import Tonic.BorshDecode
import Tonic.RelatedLists
import Tonic.WriteOverlay
import Tonic.Transition

namespace Tonic

open WriteOverlay RelatedLists

abbrev Bytes := List UInt8

abbrev SchemaName := String

/-- `BTreeMap<Vec<u8>, T>`; a column family is one of byte strings. -/
abbrev BTreeMap (T : Type) := Std.ExtTreeMap Bytes T

/-- `kv_store::WriteOperation`: a put of serialized bytes or a delete. -/
abbrev WriteOperation := Write Bytes

/-- `HashMap<SchemaName, BTreeMap<Vec<u8>, WriteOperation>>`. -/
abbrev Changes := Std.ExtTreeMap SchemaName (BTreeMap WriteOperation)

/-- The order in which a `HashMap` hands out its entries: by ascending rank of their key. -/
abbrev HashRank := SchemaName → ℕ

structure Schema where
  name : SchemaName
  Key : Type
  Value : Type
  [serializeKey : BorshSerialize Key]
  [fitsKey : BorshFits Key]
  [deserializeKey : BorshDeserialize Key]
  [serializeValue : BorshSerialize Value]
  [fitsValue : BorshFits Value]
  [deserializeValue : BorshDeserialize Value]

attribute [instance] Schema.serializeKey Schema.fitsKey Schema.deserializeKey
  Schema.serializeValue Schema.fitsValue Schema.deserializeValue

/-! ## Changes -/

namespace Changes

/-- The entries in the order of the hash map. -/
def entries (hashRank : HashRank) (changes : Changes) :
    List (SchemaName × BTreeMap WriteOperation) :=
  changes.toList.insertionSort (fun a b => hashRank a.1 ≤ hashRank b.1)

/-- The operation recorded for a key of a schema. -/
def operation (changes : Changes) (k : SchemaName × Bytes) : Option WriteOperation :=
  changes[k.1]?.bind (·[k.2]?)

/-- `entry(schema).or_default().insert(key, operation)`. -/
def insert (changes : Changes) (schema : SchemaName) (key : Bytes) (operation : WriteOperation) :
    Changes :=
  changes.alter schema (fun btree => some ((btree.getD ∅).insert key operation))

/-- `entry(schema).or_default()`, then an insert for each operation of the entry. -/
def extendEntry (changes : Changes) (entry : SchemaName × BTreeMap WriteOperation) : Changes :=
  changes.alter entry.1 fun btree =>
    some (entry.2.foldl (fun m key operation => m.insert key operation) (btree.getD ∅))

/-- All entries of a batch, in the order of the hash map. -/
def extend (hashRank : HashRank) (changes updates : Changes) : Changes :=
  (updates.entries hashRank).foldl extendEntry changes

end Changes

/-! ## The database -/

/-- What the program asks of the `rocksdb` library beyond single reads and writes: the batched
lookup, which is promised to be a lookup of each key where the keys ascend bytewise. -/
structure RocksLib where
  batchedMultiGet : BTreeMap Bytes → List Bytes → List (Option Bytes)
  batchedMultiGet_sorted : ∀ (cf : BTreeMap Bytes) (keys : List Bytes),
    keys.Pairwise (fun a b => (compare a b).isLE) → batchedMultiGet cf keys = keys.map (cf[·]?)

structure RocksDB where
  columns : Std.ExtTreeMap SchemaName (BTreeMap Bytes)

namespace RocksDB

/-- Panics for an unknown schema. -/
def cfHandle (db : RocksDB) (schema : SchemaName) : Option (BTreeMap Bytes) :=
  db.columns[schema]?

def rawGet (db : RocksDB) (schema : SchemaName) (key : Bytes) : Option (Option Bytes) := do
  let cf ← db.cfHandle schema
  some cf[key]?

def rawMultiGet (lib : RocksLib) (db : RocksDB) (schema : SchemaName) (keys : List Bytes) :
    Option (List (Option Bytes)) := do
  let cf ← db.cfHandle schema
  some (lib.batchedMultiGet cf keys)

/-- A write to a column family. -/
def writeCf (cf : BTreeMap Bytes) (key : Bytes) : WriteOperation → BTreeMap Bytes
  | .put value => cf.insert key value
  | .delete => cf.erase key

/-- A write to the column family of a schema. -/
def writeKey (db : RocksDB) (schema : SchemaName) (key : Bytes) (operation : WriteOperation) :
    RocksDB where
  columns := db.columns.modify schema (fun cf => writeCf cf key operation)

def rawPut (db : RocksDB) (schema : SchemaName) (key value : Bytes) : Option RocksDB := do
  let _ ← db.cfHandle schema
  some (db.writeKey schema key (.put value))

def rawDelete (db : RocksDB) (schema : SchemaName) (key : Bytes) : Option RocksDB := do
  let _ ← db.cfHandle schema
  some (db.writeKey schema key .delete)

/-- A `WriteBatch`: operations in the order they are applied. -/
abbrev WriteBatch := List ((SchemaName × Bytes) × WriteOperation)

/-- The operations of one schema, after its handle was looked up. -/
def batchOf (db : RocksDB) (entry : SchemaName × BTreeMap WriteOperation) : Option WriteBatch := do
  let _ ← db.cfHandle entry.1
  some (entry.2.toList.map fun (key, operation) => ((entry.1, key), operation))

/-- `inner.write(batch)`. -/
def write (db : RocksDB) (batch : WriteBatch) : RocksDB :=
  batch.foldl (fun db e => db.writeKey e.1.1 e.1.2 e.2) db

def rawWriteBatch (db : RocksDB) (hashRank : HashRank) (changes : Changes) : Option RocksDB := do
  let batches ← (changes.entries hashRank).mapM db.batchOf
  some (db.write batches.flatten)

/-! ### Typed access -/

/-- `codec::deserialize` of what was found; panics where the bytes are no value. -/
def decodeFound {V : Type} [BorshDeserialize V] : Option Bytes → Option (Option V)
  | none => some none
  | some bytes => (fromSlice bytes).map some

def get (db : RocksDB) (S : Schema) (key : S.Key) : Option (Option S.Value) := do
  let keyBytes ← toVec key
  let found ← db.rawGet S.name keyBytes
  decodeFound found

def multiGet (lib : RocksLib) (db : RocksDB) (S : Schema) (keys : List S.Key) :
    Option (List (Option S.Value)) := do
  let keysBytes ← keys.mapM toVec
  let found ← db.rawMultiGet lib S.name keysBytes
  found.mapM decodeFound

/-- `exists`. -/
def existsKey (db : RocksDB) (S : Schema) (key : S.Key) : Option Bool := do
  let keyBytes ← toVec key
  let found ← db.rawGet S.name keyBytes
  some found.isSome

def put (db : RocksDB) (S : Schema) (key : S.Key) (value : S.Value) : Option RocksDB := do
  let keyBytes ← toVec key
  let valueBytes ← toVec value
  db.rawPut S.name keyBytes valueBytes

def delete (db : RocksDB) (S : Schema) (key : S.Key) : Option RocksDB := do
  let keyBytes ← toVec key
  db.rawDelete S.name keyBytes

def writeBatch (db : RocksDB) (hashRank : HashRank) (changes : Changes) : Option RocksDB :=
  db.rawWriteBatch hashRank changes

end RocksDB

/-! ## Laws of changes -/

namespace Changes

theorem entries_perm (hashRank : HashRank) (changes : Changes) :
    (changes.entries hashRank).Perm changes.toList :=
  List.perm_insertionSort _ _

theorem mem_entries {hashRank : HashRank} {changes : Changes} {schema : SchemaName}
    {btree : BTreeMap WriteOperation} :
    (schema, btree) ∈ changes.entries hashRank ↔ changes[schema]? = some btree := by
  rw [(entries_perm hashRank changes).mem_iff, Std.ExtTreeMap.mem_toList_iff_getElem?_eq_some]

theorem operation_empty (k : SchemaName × Bytes) : (∅ : Changes).operation k = none := by
  rw [operation, Std.ExtTreeMap.getElem?_empty]
  rfl

/-- A recorded operation replaces what was recorded for its key. -/
theorem operation_insert (changes : Changes) (schema : SchemaName) (key : Bytes)
    (w : WriteOperation) :
    (changes.insert schema key w).operation
      = Function.update changes.operation (schema, key) (some w) := by
  funext k
  obtain ⟨s, b⟩ := k
  rw [operation, insert, Std.ExtTreeMap.getElem?_alter]
  by_cases hs : compare schema s = .eq
  · obtain rfl := Std.LawfulEqOrd.eq_of_compare hs
    rw [if_pos hs, Option.bind_some, Std.ExtTreeMap.getElem?_insert]
    by_cases hb : compare key b = .eq
    · obtain rfl := Std.LawfulEqOrd.eq_of_compare hb
      rw [if_pos hb, Function.update_self]
    · have hne : (schema, b) ≠ (schema, key) := by
        rintro heq
        cases heq
        exact hb Std.ReflCmp.compare_self
      rw [if_neg hb, Function.update_of_ne hne, operation]
      cases changes[schema]? with
      | none => exact Std.ExtTreeMap.getElem?_empty
      | some btree => rfl
  · have hne : (s, b) ≠ (schema, key) := by
      rintro heq
      cases heq
      exact hs Std.ReflCmp.compare_self
    rw [if_neg hs, Function.update_of_ne hne, operation]

/-- Inserting the entries of one tree into another. -/
theorem getElem?_foldl_insert {T : Type} (btree old : BTreeMap T) (b : Bytes) :
    (btree.foldl (fun m key t => m.insert key t) old)[b]? = btree[b]?.or old[b]? := by
  -- The fold writes the entries one after another, and their keys are distinct.
  have hfold : ∀ (l : List (Bytes × T)) (m : BTreeMap T),
      (fun b => (l.foldl (fun m e => m.insert e.1 e.2) m)[b]?)
        = writeAll (l.map fun e => (e.1, Write.put e.2)) (fun b => m[b]?) := by
    intro l
    induction l with
    | nil => intro m; rfl
    | cons e l ih =>
      intro m
      rw [List.map_cons, writeAll_cons, List.foldl_cons, ih]
      congr 1
      funext b
      rw [Std.ExtTreeMap.getElem?_insert, write]
      by_cases hb : compare e.1 b = .eq
      · obtain rfl := Std.LawfulEqOrd.eq_of_compare hb
        rw [if_pos hb, Function.update_self]
        rfl
      · have hne : b ≠ e.1 := by
          rintro rfl
          exact hb Std.ReflCmp.compare_self
        rw [if_neg hb, Function.update_of_ne hne]
  have hnodup : ((btree.toList.map fun e => (e.1, Write.put e.2)).map Prod.fst).Nodup := by
    rw [List.map_map]
    refine List.pairwise_map.mpr (Std.ExtTreeMap.distinct_keys_toList.imp ?_)
    intro e e' hne heq
    apply hne
    rw [show e.1 = e'.1 from heq]
    exact Std.ReflCmp.compare_self
  have hmem : ∀ key w, (btree[key]?.map Write.put) = some w ↔
      (key, w) ∈ btree.toList.map fun e => (e.1, Write.put e.2) := by
    intro key w
    rw [List.mem_map, Option.map_eq_some_iff]
    constructor
    · rintro ⟨t, ht, rfl⟩
      exact ⟨(key, t), Std.ExtTreeMap.mem_toList_iff_getElem?_eq_some.mpr ht, rfl⟩
    · rintro ⟨⟨key', t⟩, ht, heq⟩
      cases heq
      exact ⟨t, Std.ExtTreeMap.mem_toList_iff_getElem?_eq_some.mp ht, rfl⟩
  have hall := congrFun ((hfold btree.toList old).trans (writeAll_eq_overlay hnodup hmem _)) b
  rw [Std.ExtTreeMap.foldl_eq_foldl_toList]
  refine hall.trans ?_
  rw [overlay]
  cases btree[b]? with
  | none => rfl
  | some t => rfl

/-- The operations of an entry come before those that were recorded for its schema. -/
theorem operation_extendEntry (changes : Changes)
    (entry : SchemaName × BTreeMap WriteOperation) (k : SchemaName × Bytes) :
    (changes.extendEntry entry).operation k =
      if k.1 = entry.1 then entry.2[k.2]?.or (changes.operation k) else changes.operation k := by
  obtain ⟨s, b⟩ := k
  rw [operation, extendEntry, Std.ExtTreeMap.getElem?_alter]
  by_cases hs : compare entry.1 s = .eq
  · have heq := Std.LawfulEqOrd.eq_of_compare hs
    subst heq
    rw [if_pos hs, Option.bind_some, if_pos rfl, getElem?_foldl_insert, operation]
    cases changes[entry.1]? with
    | none =>
      rw [Option.getD_none, Std.ExtTreeMap.getElem?_empty]
      rfl
    | some btree => rfl
  · have hne : ¬ s = entry.1 := by
      rintro rfl
      exact hs Std.ReflCmp.compare_self
    rw [if_neg hs, if_neg hne, operation]

theorem nodup_entries (hashRank : HashRank) (changes : Changes) :
    ((changes.entries hashRank).map Prod.fst).Nodup := by
  rw [((entries_perm hashRank changes).map Prod.fst).nodup_iff]
  refine List.pairwise_map.mpr (Std.ExtTreeMap.distinct_keys_toList.imp ?_)
  intro e e' hne heq
  apply hne
  rw [show e.1 = e'.1 from heq]
  exact Std.ReflCmp.compare_self

/-- **A batch overrides**: its operations come before the recorded ones, in whatever order the
hash map hands out its schemas. -/
theorem operation_extend (hashRank : HashRank) (changes updates : Changes) :
    (changes.extend hashRank updates).operation = merge updates.operation changes.operation := by
  -- By induction on the schemas that are left, for whatever is recorded so far.
  have hfold : ∀ (l : List (SchemaName × BTreeMap WriteOperation)) (changes : Changes)
      (k : SchemaName × Bytes), (l.map Prod.fst).Nodup →
      (l.foldl extendEntry changes).operation k =
        ((l.find? fun e => decide (e.1 = k.1)).bind (·.2[k.2]?)).or (changes.operation k) := by
    intro l
    induction l with
    | nil => intro changes k _; rfl
    | cons e l ih =>
      intro changes k hnodup
      rw [List.map_cons, List.nodup_cons] at hnodup
      rw [List.foldl_cons, ih _ _ hnodup.2, operation_extendEntry, List.find?_cons]
      by_cases he : k.1 = e.1
      · -- no later entry has the schema of this one
        have hnone : l.find? (fun e' => decide (e'.1 = k.1)) = none := by
          rw [List.find?_eq_none]
          intro e' he' heq
          apply hnodup.1
          rw [← he, ← of_decide_eq_true heq]
          exact List.mem_map_of_mem he'
        rw [hnone, if_pos he, decide_eq_true he.symm]
        rfl
      · rw [if_neg he, decide_eq_false (Ne.symm he)]
  funext k
  rw [extend, hfold _ _ _ (nodup_entries hashRank updates), merge]
  congr 1
  cases hk : updates[k.1]? with
  | none =>
    have hnone : (updates.entries hashRank).find? (fun e => decide (e.1 = k.1)) = none := by
      rw [List.find?_eq_none]
      rintro ⟨s, btree⟩ he heq
      have hs : s = k.1 := of_decide_eq_true heq
      rw [mem_entries, hs, hk] at he
      cases he
    rw [hnone, operation, hk]
    rfl
  | some btree =>
    cases hfind : (updates.entries hashRank).find? (fun e => decide (e.1 = k.1)) with
    | none =>
      have hmem : (k.1, btree) ∈ updates.entries hashRank := mem_entries.mpr hk
      exact absurd (decide_eq_true rfl) (List.find?_eq_none.mp hfind _ hmem)
    | some e =>
      obtain ⟨s, btree'⟩ := e
      have hs : s = k.1 := by simpa using List.find?_some hfind
      have hmem := List.mem_of_find?_eq_some hfind
      rw [mem_entries, hs, hk] at hmem
      cases hmem
      rw [operation, hk]
      rfl

/-- A batch adds no schemas but its own. -/
theorem getElem?_extend {hashRank : HashRank} {changes updates : Changes} {s : SchemaName}
    {btree : BTreeMap WriteOperation} (h : (changes.extend hashRank updates)[s]? = some btree) :
    (∃ old, changes[s]? = some old) ∨ ∃ new, updates[s]? = some new := by
  have hfold : ∀ (l : List (SchemaName × BTreeMap WriteOperation)) (changes : Changes)
      {btree : BTreeMap WriteOperation}, (l.foldl extendEntry changes)[s]? = some btree →
      (∃ old, changes[s]? = some old) ∨ ∃ new, (s, new) ∈ l := by
    intro l
    induction l with
    | nil => exact fun changes btree h => Or.inl ⟨btree, h⟩
    | cons e l ih =>
      intro changes btree h
      rcases ih _ h with ⟨old, hold⟩ | ⟨new, hnew⟩
      · rw [extendEntry, Std.ExtTreeMap.getElem?_alter] at hold
        split at hold
        next heq =>
          obtain rfl := Std.LawfulEqOrd.eq_of_compare heq
          exact Or.inr ⟨e.2, List.mem_cons_self⟩
        next => exact Or.inl ⟨old, hold⟩
      · exact Or.inr ⟨new, List.mem_cons_of_mem _ hnew⟩
  rcases hfold _ _ h with hold | ⟨new, hnew⟩
  · exact Or.inl hold
  · exact Or.inr ⟨new, mem_entries.mp hnew⟩

end Changes

/-! ## Laws of the database -/

namespace RocksDB

/-- What the database holds under a key of a schema. -/
def content (db : RocksDB) (k : SchemaName × Bytes) : Option Bytes :=
  db.columns[k.1]?.bind (·[k.2]?)

/-- The schema is one the database was opened with. -/
def Knows (db : RocksDB) (schema : SchemaName) : Prop := db.columns[schema]?.isSome = true

theorem knows_iff {db : RocksDB} {schema : SchemaName} :
    db.Knows schema ↔ ∃ cf, db.cfHandle schema = some cf :=
  Option.isSome_iff_exists

theorem rawGet_of_knows {db : RocksDB} {schema : SchemaName} (h : db.Knows schema) (key : Bytes) :
    db.rawGet schema key = some (db.content (schema, key)) := by
  obtain ⟨cf, hcf⟩ := knows_iff.mp h
  rw [rawGet, hcf, content, show db.columns[schema]? = some cf from hcf]
  rfl

theorem rawGet_of_not_knows {db : RocksDB} {schema : SchemaName} (h : ¬ db.Knows schema)
    (key : Bytes) : db.rawGet schema key = none := by
  rw [rawGet, cfHandle, Option.not_isSome_iff_eq_none.mp h]
  rfl

/-- A database is its schemas and its content. -/
theorem ext_content {db db' : RocksDB} (hknows : ∀ s, db.Knows s ↔ db'.Knows s)
    (hcontent : db.content = db'.content) : db = db' := by
  obtain ⟨columns⟩ := db
  obtain ⟨columns'⟩ := db'
  congr 1
  apply Std.ExtTreeMap.ext_getElem?
  intro s
  have hk := hknows s
  have hc : ∀ key, columns[s]?.bind (·[key]?) = columns'[s]?.bind (·[key]?) :=
    fun key => congrFun hcontent (s, key)
  simp only [Knows] at hk
  cases h : columns[s]? with
  | none =>
    cases h' : columns'[s]? with
    | none => rfl
    | some cf' => simp [h, h'] at hk
  | some cf =>
    cases h' : columns'[s]? with
    | none => simp [h, h'] at hk
    | some cf' =>
      simp only [h, h', Option.bind_some] at hc
      exact congrArg some (Std.ExtTreeMap.ext_getElem? hc)

theorem getElem?_writeCf (cf : BTreeMap Bytes) (key b : Bytes) (w : WriteOperation) :
    (writeCf cf key w)[b]? = if compare key b = .eq then value w else cf[b]? := by
  cases w with
  | put v => exact Std.ExtTreeMap.getElem?_insert
  | delete => exact Std.ExtTreeMap.getElem?_erase

/-- A write changes no schema. -/
@[simp] theorem knows_writeKey {db : RocksDB} {schema s : SchemaName} {key : Bytes}
    {w : WriteOperation} : (db.writeKey schema key w).Knows s ↔ db.Knows s := by
  simp only [Knows, writeKey, Std.ExtTreeMap.getElem?_modify]
  split
  next h =>
    obtain rfl := Std.LawfulEqOrd.eq_of_compare h
    rw [Option.isSome_map]
  next => exact Iff.rfl

/-- A write to a known schema is a write of the content. -/
theorem content_writeKey {db : RocksDB} {schema : SchemaName} (hknown : db.Knows schema)
    (key : Bytes) (w : WriteOperation) :
    (db.writeKey schema key w).content = WriteOverlay.write db.content (schema, key) w := by
  obtain ⟨cf, hcf⟩ := knows_iff.mp hknown
  rw [cfHandle] at hcf
  funext k
  obtain ⟨s, b⟩ := k
  rw [content, writeKey, Std.ExtTreeMap.getElem?_modify, WriteOverlay.write]
  by_cases hs : compare schema s = .eq
  · obtain rfl := Std.LawfulEqOrd.eq_of_compare hs
    rw [if_pos hs, hcf, Option.map_some, Option.bind_some, getElem?_writeCf]
    by_cases hb : compare key b = .eq
    · obtain rfl := Std.LawfulEqOrd.eq_of_compare hb
      rw [if_pos hb, Function.update_self]
    · have hne : (schema, b) ≠ (schema, key) := by
        rintro heq
        cases heq
        exact hb Std.ReflCmp.compare_self
      rw [if_neg hb, Function.update_of_ne hne, content, hcf, Option.bind_some]
  · have hne : (s, b) ≠ (schema, key) := by
      rintro heq
      cases heq
      exact hs Std.ReflCmp.compare_self
    rw [if_neg hs, Function.update_of_ne hne, content]

/-- A batch changes no schema. -/
theorem knows_write {db : RocksDB} {batch : WriteBatch} {s : SchemaName} :
    (db.write batch).Knows s ↔ db.Knows s := by
  induction batch generalizing db with
  | nil => exact Iff.rfl
  | cons e batch ih => exact ih.trans knows_writeKey

/-- A batch to known schemas writes the content key by key. -/
theorem content_write {db : RocksDB} {batch : WriteBatch}
    (hknown : ∀ e ∈ batch, db.Knows e.1.1) :
    (db.write batch).content = writeAll batch db.content := by
  induction batch generalizing db with
  | nil => rfl
  | cons e batch ih =>
    obtain ⟨⟨s, b⟩, w⟩ := e
    have hrest : ∀ e ∈ batch, (db.writeKey s b w).Knows e.1.1 :=
      fun e he => knows_writeKey.mpr (hknown e (List.mem_cons_of_mem _ he))
    rw [writeAll_cons, ← content_writeKey (hknown _ List.mem_cons_self)]
    exact ih hrest

/-- The operations of one entry. -/
def entryBatch (entry : SchemaName × BTreeMap WriteOperation) : WriteBatch :=
  entry.2.toList.map fun (key, operation) => ((entry.1, key), operation)

theorem mem_entryBatch {entry : SchemaName × BTreeMap WriteOperation} {k : SchemaName × Bytes}
    {w : WriteOperation} : (k, w) ∈ entryBatch entry ↔ k.1 = entry.1 ∧ entry.2[k.2]? = some w := by
  rw [entryBatch, List.mem_map]
  constructor
  · rintro ⟨⟨b, w'⟩, hmem, heq⟩
    cases heq
    exact ⟨rfl, Std.ExtTreeMap.mem_toList_iff_getElem?_eq_some.mp hmem⟩
  · rintro ⟨hs, hw⟩
    obtain ⟨s, b⟩ := k
    obtain rfl : s = entry.1 := hs
    exact ⟨(b, w), Std.ExtTreeMap.mem_toList_iff_getElem?_eq_some.mpr hw, rfl⟩

theorem batchOf_eq_some_iff {db : RocksDB} {entry : SchemaName × BTreeMap WriteOperation}
    {batch : WriteBatch} :
    db.batchOf entry = some batch ↔ db.Knows entry.1 ∧ batch = entryBatch entry := by
  rw [batchOf, knows_iff]
  constructor
  · intro h
    obtain ⟨cf, hcf, hsome⟩ := Option.bind_eq_some_iff.mp h
    exact ⟨⟨cf, hcf⟩, (Option.some.inj hsome).symm⟩
  · rintro ⟨⟨cf, hcf⟩, rfl⟩
    rw [hcf]
    rfl

/-- All operations of a batch of changes. -/
def changesBatch (hashRank : HashRank) (changes : Changes) : WriteBatch :=
  (changes.entries hashRank).flatMap entryBatch

theorem mem_changesBatch {hashRank : HashRank} {changes : Changes} {k : SchemaName × Bytes}
    {w : WriteOperation} :
    changes.operation k = some w ↔ (k, w) ∈ changesBatch hashRank changes := by
  rw [changesBatch, List.mem_flatMap, Changes.operation, Option.bind_eq_some_iff]
  constructor
  · rintro ⟨btree, hbtree, hw⟩
    exact ⟨(k.1, btree), Changes.mem_entries.mpr hbtree, mem_entryBatch.mpr ⟨rfl, hw⟩⟩
  · rintro ⟨⟨s, btree⟩, hmem, hk⟩
    obtain ⟨hs, hw⟩ := mem_entryBatch.mp hk
    exact ⟨btree, by rw [show k.1 = s from hs]; exact Changes.mem_entries.mp hmem, hw⟩

/-- No key is written twice. -/
theorem nodup_changesBatch (hashRank : HashRank) (changes : Changes) :
    ((changesBatch hashRank changes).map Prod.fst).Nodup := by
  rw [changesBatch, List.map_flatMap, List.nodup_flatMap]
  constructor
  · intro entry _
    rw [entryBatch, List.map_map]
    refine List.pairwise_map.mpr (Std.ExtTreeMap.distinct_keys_toList.imp ?_)
    rintro ⟨b, w⟩ ⟨b', w'⟩ hne heq
    cases heq
    exact hne Std.ReflCmp.compare_self
  · refine (List.pairwise_map.mp (Changes.nodup_entries hashRank changes)).imp ?_
    intro e e' hne k hk hk'
    obtain ⟨⟨k', w⟩, hw, rfl⟩ := List.mem_map.mp hk
    obtain ⟨⟨k'', w'⟩, hw', heq⟩ := List.mem_map.mp hk'
    obtain rfl : k'' = k' := heq
    exact hne ((mem_entryBatch.mp hw).1.symm.trans (mem_entryBatch.mp hw').1)

theorem toVec_eq_some_iff {T : Type} [BorshSerialize T] [BorshFits T] (t : T) (bytes : Bytes) :
    toVec t = some bytes ↔ fits t = true ∧ bytes = serialize t := by
  rw [toVec]
  by_cases hfits : fits t = true
  · rw [if_pos hfits, Option.some.injEq]
    exact ⟨fun h => ⟨hfits, h.symm⟩, fun h => h.2.symm⟩
  · rw [if_neg hfits]
    constructor
    · intro h
      cases h
    · exact fun h => absurd h.1 hfits

/-- The serialized keys ascend bytewise. -/
def ByteAscending {T : Type} [BorshSerialize T] (keys : List T) : Prop :=
  keys.Pairwise fun a b => (compare (serialize a) (serialize b)).isLE

/-- On ascending keys the batched lookup answers as single lookups do. -/
theorem multiGet_of_ascending (lib : RocksLib) {db : RocksDB} {S : Schema}
    (hknown : db.Knows S.name) {keys : List S.Key} (hkeys : ByteAscending keys) :
    db.multiGet lib S keys = keys.mapM (db.get S) := by
  obtain ⟨cf, hcf⟩ := knows_iff.mp hknown
  have hget : (fun key => (toVec key).bind fun keyBytes => decodeFound cf[keyBytes]?)
      = db.get S := by
    funext key
    have hfound : ∀ keyBytes, decodeFound cf[keyBytes]?
        = (db.rawGet S.name keyBytes).bind (decodeFound (V := S.Value)) := by
      intro keyBytes
      rw [rawGet, hcf]
      rfl
    exact congrArg (toVec key).bind (funext hfound)
  rw [← hget, ← mapM_bind_mapM, multiGet]
  cases hbytes : keys.mapM toVec with
  | none => rfl
  | some keysBytes =>
    obtain ⟨-, rfl⟩ := (mapM_eq_some_iff toVec_eq_some_iff).mp hbytes
    show (db.rawMultiGet lib S.name _).bind _ = _
    rw [rawMultiGet, hcf]
    show (lib.batchedMultiGet cf _).mapM decodeFound = _
    rw [lib.batchedMultiGet_sorted cf _ (List.pairwise_map.mpr hkeys)]
    rfl

theorem multiGet_of_not_knows (lib : RocksLib) {db : RocksDB} {S : Schema}
    (hknown : ¬ db.Knows S.name) (keys : List S.Key) : db.multiGet lib S keys = none := by
  rw [multiGet]
  cases keys.mapM toVec with
  | none => rfl
  | some keysBytes =>
    show (db.rawMultiGet lib S.name _).bind _ = _
    rw [rawMultiGet, cfHandle, Option.not_isSome_iff_eq_none.mp hknown]
    rfl

/-- **What a batch of changes does**: it needs every schema in it, and writes the database as if
the changes had been laid over it. -/
theorem rawWriteBatch_eq_some_iff {db db' : RocksDB} {hashRank : HashRank} {changes : Changes} :
    db.rawWriteBatch hashRank changes = some db' ↔
      (∀ s btree, changes[s]? = some btree → db.Knows s) ∧ (∀ s, db'.Knows s ↔ db.Knows s) ∧
        db'.content = overlay changes.operation db.content := by
  have hbatches : ∀ batches : List WriteBatch,
      (changes.entries hashRank).mapM db.batchOf = some batches ↔
        (∀ entry ∈ changes.entries hashRank, db.Knows entry.1) ∧
          batches = (changes.entries hashRank).map entryBatch :=
    fun _ => mapM_eq_some_iff fun _ _ => batchOf_eq_some_iff
  have hknows : (∀ entry ∈ changes.entries hashRank, db.Knows entry.1) ↔
      ∀ s btree, changes[s]? = some btree → db.Knows s := by
    constructor
    · intro h s btree hs
      exact h (s, btree) (Changes.mem_entries.mpr hs)
    · rintro h ⟨s, btree⟩ hmem
      exact h s btree (Changes.mem_entries.mp hmem)
  -- where all schemas are known, the batch written is `changesBatch`
  have hbatch : (∀ s btree, changes[s]? = some btree → db.Knows s) →
      (db.write (changesBatch hashRank changes)).content
        = overlay changes.operation db.content := by
    intro hknown
    rw [content_write, writeAll_eq_overlay (nodup_changesBatch hashRank changes)
      (fun k w => mem_changesBatch)]
    rintro ⟨⟨s, b⟩, w⟩ hmem
    obtain ⟨btree, hbtree, -⟩ := Option.bind_eq_some_iff.mp (mem_changesBatch.mpr hmem)
    exact hknown s btree hbtree
  rw [rawWriteBatch]
  constructor
  · intro h
    obtain ⟨batches, hmapM, hsome⟩ := Option.bind_eq_some_iff.mp h
    obtain ⟨hknown, rfl⟩ := (hbatches _).mp hmapM
    obtain rfl : db.write (changesBatch hashRank changes) = db' := Option.some.inj hsome
    exact ⟨hknows.mp hknown, fun s => knows_write, hbatch (hknows.mp hknown)⟩
  · rintro ⟨hknown, hsame, hcontent⟩
    have hdb : db.write (changesBatch hashRank changes) = db' :=
      ext_content (fun s => knows_write.trans (hsame s).symm) ((hbatch hknown).trans hcontent.symm)
    rw [(hbatches _).mpr ⟨hknows.mpr hknown, rfl⟩]
    exact congrArg some hdb

end RocksDB

end Tonic
