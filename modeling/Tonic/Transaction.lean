/-
# In-memory transactions

`crates/database/src/transaction.rs`.  A transaction records operations per schema and
reads through them; the database underneath is read only until the commit.  It refines
direct writes: after any operations it answers every read as a database to which they
had been applied would, and its commit leaves the database in that state.
-/
import Tonic.Database

namespace Tonic

open WriteOverlay Transition

structure InMemoryTransaction where
  db : RocksDB
  changes : Changes

namespace InMemoryTransaction

def new (db : RocksDB) : InMemoryTransaction where
  db
  changes := ∅

def intoChanges (tx : InMemoryTransaction) : Changes := tx.changes

def getFromChanges (tx : InMemoryTransaction) (schema : SchemaName) (key : Bytes) :
    Option WriteOperation :=
  tx.changes[schema]?.bind (·[key]?)

/-! ### Reads -/

def get (tx : InMemoryTransaction) (S : Schema) (key : S.Key) : Option (Option S.Value) := do
  let keyBytes ← toVec key
  match tx.getFromChanges S.name keyBytes with
  | some (.put valueBytes) => (fromSlice valueBytes).map some
  | some .delete => some none
  | none => do
    let found ← tx.db.rawGet S.name keyBytes
    RocksDB.decodeFound found

/-- One key of `multi_get`, where the schema has recorded operations. -/
def multiGetKey (tx : InMemoryTransaction) (S : Schema) (btree : BTreeMap WriteOperation)
    (key : S.Key) : Option (Option S.Value) := do
  let keyBytes ← toVec key
  match btree[keyBytes]? with
  | some (.put valueBytes) => (fromSlice valueBytes).map some
  | some .delete => some none
  | none => do
    let found ← tx.db.rawGet S.name keyBytes
    RocksDB.decodeFound found

def multiGet (lib : RocksLib) (tx : InMemoryTransaction) (S : Schema) (keys : List S.Key) :
    Option (List (Option S.Value)) :=
  match tx.changes[S.name]? with
  | some btree => keys.mapM (tx.multiGetKey S btree)
  | none => tx.db.multiGet lib S keys

/-- `exists`. -/
def existsKey (tx : InMemoryTransaction) (S : Schema) (key : S.Key) : Option Bool := do
  let keyBytes ← toVec key
  match tx.getFromChanges S.name keyBytes with
  | some (.put _) => some true
  | some .delete => some false
  | none => do
    let found ← tx.db.rawGet S.name keyBytes
    some found.isSome

/-! ### Writes -/

def put (tx : InMemoryTransaction) (S : Schema) (key : S.Key) (value : S.Value) :
    Option InMemoryTransaction := do
  let keyBytes ← toVec key
  let valueBytes ← toVec value
  some { tx with changes := tx.changes.insert S.name keyBytes (.put valueBytes) }

def delete (tx : InMemoryTransaction) (S : Schema) (key : S.Key) :
    Option InMemoryTransaction := do
  let keyBytes ← toVec key
  some { tx with changes := tx.changes.insert S.name keyBytes .delete }

def writeBatch (tx : InMemoryTransaction) (hashRank : HashRank) (changes : Changes) :
    InMemoryTransaction :=
  { tx with changes := tx.changes.extend hashRank changes }

def commit (hashRank : HashRank) (tx : InMemoryTransaction) : Option RocksDB :=
  tx.db.rawWriteBatch hashRank tx.changes

end InMemoryTransaction

/-! ## Operations, on a transaction and directly -/

/-- A mutating call; a batch comes with the order in which its hash map is handed out. -/
inductive Mutation where
  | put (S : Schema) (key : S.Key) (value : S.Value)
  | delete (S : Schema) (key : S.Key)
  | writeBatch (hashRank : HashRank) (changes : Changes)

/-- The call on a database. -/
def RocksDB.mutate (db : RocksDB) : Mutation → Option RocksDB
  | .put S key value => db.put S key value
  | .delete S key => db.delete S key
  | .writeBatch hashRank changes => db.writeBatch hashRank changes

/-- The call on a transaction. -/
def InMemoryTransaction.mutate (tx : InMemoryTransaction) :
    Mutation → Option InMemoryTransaction
  | .put S key value => tx.put S key value
  | .delete S key => tx.delete S key
  | .writeBatch hashRank changes => some (tx.writeBatch hashRank changes)

/-! ## The refinement -/

/-- The transaction stands for the database `direct`: reading through its changes gives the
content of `direct`, and it has touched known schemas only. -/
structure InMemoryTransaction.Represents (tx : InMemoryTransaction) (direct : RocksDB) : Prop where
  knows_iff : ∀ s, direct.Knows s ↔ tx.db.Knows s
  touched : ∀ s btree, tx.changes[s]? = some btree → tx.db.Knows s
  content_eq : direct.content = overlay tx.changes.operation tx.db.content

namespace InMemoryTransaction

variable {tx : InMemoryTransaction} {direct : RocksDB}

theorem represents_new (db : RocksDB) : (new db).Represents db where
  knows_iff _ := Iff.rfl
  touched s btree h := by
    rw [show (new db).changes = ∅ from rfl, Std.ExtTreeMap.getElem?_empty] at h
    cases h
  content_eq := by
    have hempty : (new db).changes.operation = fun _ => none := funext Changes.operation_empty
    rw [hempty, overlay_empty]
    rfl

/-- A commit leaves the database that the transaction stands for. -/
theorem Represents.commit (h : tx.Represents direct) (hashRank : HashRank) :
    tx.commit hashRank = some direct :=
  RocksDB.rawWriteBatch_eq_some_iff.mpr ⟨h.touched, h.knows_iff, h.content_eq⟩

/-- Recording one operation is writing one key. -/
theorem Represents.insert (h : tx.Represents direct) {schema : SchemaName} {key : Bytes}
    (w : WriteOperation) (hknown : direct.Knows schema) :
    ({ tx with changes := tx.changes.insert schema key w } : InMemoryTransaction).Represents
      (direct.writeKey schema key w) where
  knows_iff s := RocksDB.knows_writeKey.trans (h.knows_iff s)
  touched s btree hs := by
    rw [Changes.insert, Std.ExtTreeMap.getElem?_alter] at hs
    split at hs
    next heq =>
      obtain rfl := Std.LawfulEqOrd.eq_of_compare heq
      exact (h.knows_iff schema).mp hknown
    next => exact h.touched s btree hs
  content_eq := by
    rw [RocksDB.content_writeKey hknown, h.content_eq, Changes.operation_insert, overlay_update]

/-- Recording a batch is writing it. -/
theorem Represents.writeBatch (h : tx.Represents direct) {hashRank : HashRank} {changes : Changes}
    {direct' : RocksDB} (hwrite : direct.writeBatch hashRank changes = some direct') :
    (tx.writeBatch hashRank changes).Represents direct' := by
  obtain ⟨htouched, hknows, hcontent⟩ := RocksDB.rawWriteBatch_eq_some_iff.mp hwrite
  refine ⟨fun s => (hknows s).trans (h.knows_iff s), ?_, ?_⟩
  · intro s btree hs
    rcases Changes.getElem?_extend hs with ⟨old, hold⟩ | ⟨new, hnew⟩
    · exact h.touched s old hold
    · exact (h.knows_iff s).mp (htouched s new hnew)
  · show _ = overlay (tx.changes.extend hashRank changes).operation tx.db.content
    rw [Changes.operation_extend, overlay_merge, ← h.content_eq, hcontent]

/-- A read that looks at the recorded operation first sees what a direct read sees. -/
theorem Represents.read (h : tx.Represents direct) {γ : Type} (found : Option Bytes → Option γ)
    (schema : SchemaName) (key : Bytes) :
    (match tx.changes.operation (schema, key) with
      | some (.put valueBytes) => found (some valueBytes)
      | some .delete => found none
      | none => (tx.db.rawGet schema key).bind found)
      = (direct.rawGet schema key).bind found := by
  cases hop : tx.changes.operation (schema, key) with
  | some w =>
    obtain ⟨btree, hbtree, -⟩ := Option.bind_eq_some_iff.mp hop
    have hknown : direct.Knows schema := (h.knows_iff schema).mpr (h.touched schema btree hbtree)
    rw [RocksDB.rawGet_of_knows hknown, h.content_eq, overlay_some hop, Option.bind_some]
    cases w <;> rfl
  | none =>
    by_cases hknown : direct.Knows schema
    · rw [RocksDB.rawGet_of_knows hknown, RocksDB.rawGet_of_knows ((h.knows_iff schema).mp hknown),
        h.content_eq, overlay_none hop]
    · rw [RocksDB.rawGet_of_not_knows hknown,
        RocksDB.rawGet_of_not_knows (fun hk => hknown ((h.knows_iff schema).mpr hk))]

theorem Represents.get_eq (h : tx.Represents direct) (S : Schema) (key : S.Key) :
    tx.get S key = direct.get S key := by
  rw [get, RocksDB.get]
  apply bind_congr
  intro keyBytes
  have hread := h.read (RocksDB.decodeFound (V := S.Value)) S.name keyBytes
  exact hread

theorem Represents.existsKey_eq (h : tx.Represents direct) (S : Schema) (key : S.Key) :
    tx.existsKey S key = direct.existsKey S key := by
  rw [existsKey, RocksDB.existsKey]
  apply bind_congr
  intro keyBytes
  exact h.read (fun found => some found.isSome) S.name keyBytes

/-- Both branches of `multi_get` answer as the direct one. -/
theorem Represents.multiGet_eq (h : tx.Represents direct) (lib : RocksLib) (S : Schema)
    {keys : List S.Key} (hkeys : RocksDB.ByteAscending keys) :
    tx.multiGet lib S keys = direct.multiGet lib S keys := by
  rw [multiGet]
  split
  next btree hbtree =>
    -- the schema has recorded operations, so it is known and every key is looked up by itself
    have hknown : direct.Knows S.name := (h.knows_iff S.name).mpr (h.touched S.name btree hbtree)
    have hrecorded : ∀ keyBytes, tx.getFromChanges S.name keyBytes = btree[keyBytes]? := by
      intro keyBytes
      rw [getFromChanges, hbtree, Option.bind_some]
    have hkey : tx.multiGetKey S btree = direct.get S := by
      funext key
      rw [← h.get_eq, multiGetKey, get]
      simp only [hrecorded]
    rw [hkey, RocksDB.multiGet_of_ascending lib hknown hkeys]
  next hnone =>
    by_cases hknown : direct.Knows S.name
    · have hknown' : tx.db.Knows S.name := (h.knows_iff S.name).mp hknown
      have hrecorded : ∀ keyBytes, tx.getFromChanges S.name keyBytes = none := by
        intro keyBytes
        rw [getFromChanges, hnone, Option.bind_none]
      have hget : tx.db.get S = direct.get S := by
        funext key
        rw [← h.get_eq, RocksDB.get, get]
        simp only [hrecorded]
      rw [RocksDB.multiGet_of_ascending lib hknown hkeys,
        RocksDB.multiGet_of_ascending lib hknown' hkeys, hget]
    · have hknown' : ¬ tx.db.Knows S.name := fun hk => hknown ((h.knows_iff S.name).mpr hk)
      rw [RocksDB.multiGet_of_not_knows lib hknown, RocksDB.multiGet_of_not_knows lib hknown']

/-- Where a call succeeds on the database, it succeeds on the transaction that stands for it. -/
theorem Represents.mutate (h : tx.Represents direct) {m : Mutation} {direct' : RocksDB}
    (hm : direct.mutate m = some direct') :
    ∃ tx', tx.mutate m = some tx' ∧ tx'.db = tx.db ∧ tx'.Represents direct' := by
  cases m with
  | put S key value =>
    obtain ⟨keyBytes, hkey, hrest⟩ := Option.bind_eq_some_iff.mp hm
    obtain ⟨valueBytes, hvalue, hput⟩ := Option.bind_eq_some_iff.mp hrest
    obtain ⟨cf, hcf, hsome⟩ := Option.bind_eq_some_iff.mp hput
    obtain rfl := Option.some.inj hsome
    refine ⟨{ tx with changes := tx.changes.insert S.name keyBytes (.put valueBytes) }, ?_, rfl,
      h.insert (.put valueBytes) (RocksDB.knows_iff.mpr ⟨cf, hcf⟩)⟩
    show (toVec key).bind _ = _
    rw [hkey, Option.bind_some]
    show (toVec value).bind _ = _
    rw [hvalue, Option.bind_some]
  | delete S key =>
    obtain ⟨keyBytes, hkey, hdelete⟩ := Option.bind_eq_some_iff.mp hm
    obtain ⟨cf, hcf, hsome⟩ := Option.bind_eq_some_iff.mp hdelete
    obtain rfl := Option.some.inj hsome
    refine ⟨{ tx with changes := tx.changes.insert S.name keyBytes .delete }, ?_, rfl,
      h.insert .delete (RocksDB.knows_iff.mpr ⟨cf, hcf⟩)⟩
    show (toVec key).bind _ = _
    rw [hkey, Option.bind_some]
  | writeBatch hashRank changes => exact ⟨_, rfl, rfl, h.writeBatch hm⟩

/-- **A transaction refines direct writes.**  Where a list of calls succeeds on a database, it
succeeds on a transaction over it, which leaves the database alone, answers every read as the
written database does, and commits to the written database. -/
theorem refines_direct {db direct : RocksDB} {calls : List Mutation}
    (hdirect : exec RocksDB.mutate db calls = some direct) :
    ∃ tx, exec InMemoryTransaction.mutate (new db) calls = some tx ∧ tx.db = db ∧
      (∀ (S : Schema) (key : S.Key), tx.get S key = direct.get S key) ∧
      (∀ (S : Schema) (key : S.Key), tx.existsKey S key = direct.existsKey S key) ∧
      (∀ (lib : RocksLib) (S : Schema) (keys : List S.Key), RocksDB.ByteAscending keys →
        tx.multiGet lib S keys = direct.multiGet lib S keys) ∧
      (∀ hashRank, tx.commit hashRank = some direct) ∧
      ∀ hashRank, db.writeBatch hashRank tx.intoChanges = some direct := by
  have hstep : ∀ (tx : InMemoryTransaction) (direct : RocksDB) (m : Mutation)
      (direct' : RocksDB), (tx.db = db ∧ tx.Represents direct) →
      direct.mutate m = some direct' →
      ∃ tx', tx.mutate m = some tx' ∧ (tx'.db = db ∧ tx'.Represents direct') := by
    rintro tx direct m direct' ⟨rfl, h⟩ hm
    exact h.mutate hm
  obtain ⟨tx, htx, hdb, hrep⟩ := exec_simulates hstep ⟨rfl, represents_new db⟩ hdirect
  refine ⟨tx, htx, hdb, hrep.get_eq, hrep.existsKey_eq, ?_, hrep.commit, ?_⟩
  · exact fun lib S keys hkeys => hrep.multiGet_eq lib S hkeys
  · intro hashRank
    rw [← hdb]
    exact hrep.commit hashRank

end InMemoryTransaction

/-! ## A transaction over the schema of the tests -/

/-- `Dummy: u64 => u64`. -/
abbrev dummySchema : Schema where
  name := "Dummy"
  Key := UInt64
  Value := UInt64

/-- `create_test_db`: the schema without entries. -/
def dummyDb : RocksDB where
  columns := Std.ExtTreeMap.insert ∅ dummySchema.name ∅

def dummyCalls : List Mutation :=
  [.put dummySchema (1 : UInt64) (100 : UInt64), .delete dummySchema (1 : UInt64),
    .put dummySchema (2 : UInt64) (200 : UInt64)]

theorem dummyCalls_succeed : (exec RocksDB.mutate dummyDb dummyCalls).isSome = true := by
  decide +kernel

/-- A key that was put and deleted is gone, the other one is there. -/
theorem InMemoryTransaction.refines_direct_dummy :
    ∃ tx, exec mutate (new dummyDb) dummyCalls = some tx ∧
      tx.get dummySchema (1 : UInt64) = some none ∧
      tx.get dummySchema (2 : UInt64) = some (some (200 : UInt64)) := by
  obtain ⟨tx, htx, -, hget, -⟩ :=
    refines_direct (Option.some_get dummyCalls_succeed).symm
  refine ⟨tx, htx, ?_, ?_⟩
  · exact (hget dummySchema (1 : UInt64)).trans (by decide +kernel)
  · exact (hget dummySchema (2 : UInt64)).trans (by decide +kernel)

end Tonic
