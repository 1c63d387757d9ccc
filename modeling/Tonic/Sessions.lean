/-
# Transactions side by side

A database handle can lend itself to several transactions at once; each reads the database as
it is at the moment, under its own recorded operations, and commits in one batch.  Writes on
the handle itself have to wait until no transaction borrows it.  Whatever the order of the
calls, the database is what it would be if the committed transactions had written to it
directly, one after the other in the order of their commits, and a snapshot is the database
between two of them.
-/
import Tonic.Transaction

namespace Tonic

open WriteOverlay Transition

/-- A batch for known schemas only is written. -/
theorem RocksDB.exists_rawWriteBatch {db : RocksDB} {hashRank : HashRank} {changes : Changes}
    (h : ∀ s btree, changes[s]? = some btree → db.Knows s) :
    ∃ db', db.rawWriteBatch hashRank changes = some db' := by
  have hbatches : (changes.entries hashRank).mapM db.batchOf
      = some ((changes.entries hashRank).map entryBatch) := by
    refine (RelatedLists.mapM_eq_some_iff fun _ _ => batchOf_eq_some_iff).mpr ⟨?_, rfl⟩
    rintro ⟨s, btree⟩ hmem
    exact h s btree (Changes.mem_entries.mp hmem)
  exact ⟨_, by rw [rawWriteBatch, hbatches]; rfl⟩

/-! ## Schemas that are recorded -/

namespace Changes

/-- There is an entry for the schema. -/
def Touches (changes : Changes) (s : SchemaName) : Prop := changes[s]?.isSome = true

variable {changes updates : Changes} {s : SchemaName}

theorem touches_insert {schema : SchemaName} {key : Bytes} {w : WriteOperation} :
    (changes.insert schema key w).Touches s ↔ s = schema ∨ changes.Touches s := by
  rw [Touches, Touches, insert, Std.ExtTreeMap.getElem?_alter]
  by_cases hs : compare schema s = .eq
  · obtain rfl := Std.LawfulEqOrd.eq_of_compare hs
    simp
  · have hne : ¬ s = schema := by
      rintro rfl
      exact hs Std.ReflCmp.compare_self
    simp [hs, hne]

theorem touches_extendEntry {entry : SchemaName × BTreeMap WriteOperation} :
    (changes.extendEntry entry).Touches s ↔ s = entry.1 ∨ changes.Touches s := by
  rw [Touches, Touches, extendEntry, Std.ExtTreeMap.getElem?_alter]
  by_cases hs : compare entry.1 s = .eq
  · have heq := Std.LawfulEqOrd.eq_of_compare hs
    simp [heq]
  · have hne : ¬ s = entry.1 := by
      rintro rfl
      exact hs Std.ReflCmp.compare_self
    simp [hs, hne]

/-- A batch adds its schemas and drops none. -/
theorem touches_extend {hashRank : HashRank} :
    (changes.extend hashRank updates).Touches s ↔ updates.Touches s ∨ changes.Touches s := by
  have hfold : ∀ (l : List (SchemaName × BTreeMap WriteOperation)) (changes : Changes),
      (l.foldl extendEntry changes).Touches s ↔ s ∈ l.map Prod.fst ∨ changes.Touches s := by
    intro l
    induction l with
    | nil => simp
    | cons e l ih =>
      intro changes
      rw [List.foldl_cons, ih, touches_extendEntry, List.map_cons, List.mem_cons]
      tauto
  rw [extend, hfold]
  refine or_congr_left ?_
  rw [List.mem_map, Touches, Option.isSome_iff_exists]
  constructor
  · rintro ⟨e, he, rfl⟩
    exact ⟨e.2, mem_entries.mp he⟩
  · rintro ⟨btree, hbtree⟩
    exact ⟨(s, btree), mem_entries.mpr hbtree, rfl⟩

end Changes

/-! ## What a commit tells about the calls -/

namespace InMemoryTransaction

variable {tx tx' : InMemoryTransaction} {direct : RocksDB} {m : Mutation} {calls : List Mutation}

/-- A call records operations, whatever the database underneath holds. -/
theorem mutate_rebase (h : tx.mutate m = some tx') (db : RocksDB) :
    tx'.db = tx.db ∧
      ({ db, changes := tx.changes } : InMemoryTransaction).mutate m
        = some { db, changes := tx'.changes } := by
  cases m with
  | put S key value =>
    obtain ⟨keyBytes, hkey, hrest⟩ := Option.bind_eq_some_iff.mp h
    obtain ⟨valueBytes, hvalue, hsome⟩ := Option.bind_eq_some_iff.mp hrest
    cases hsome
    refine ⟨rfl, ?_⟩
    show (toVec key).bind _ = _
    rw [hkey, Option.bind_some]
    show (toVec value).bind _ = _
    rw [hvalue, Option.bind_some]
  | delete S key =>
    obtain ⟨keyBytes, hkey, hsome⟩ := Option.bind_eq_some_iff.mp h
    cases hsome
    refine ⟨rfl, ?_⟩
    show (toVec key).bind _ = _
    rw [hkey, Option.bind_some]
  | writeBatch hashRank changes =>
    cases h
    exact ⟨rfl, rfl⟩

/-- What is recorded for a schema is never dropped. -/
theorem touches_of_mutate {s : SchemaName} (hm : tx.mutate m = some tx') (h : tx.changes.Touches s) :
    tx'.changes.Touches s := by
  cases m with
  | put S key value =>
    obtain ⟨keyBytes, hkey, hrest⟩ := Option.bind_eq_some_iff.mp hm
    obtain ⟨valueBytes, hvalue, hsome⟩ := Option.bind_eq_some_iff.mp hrest
    cases hsome
    exact Changes.touches_insert.mpr (Or.inr h)
  | delete S key =>
    obtain ⟨keyBytes, hkey, hsome⟩ := Option.bind_eq_some_iff.mp hm
    cases hsome
    exact Changes.touches_insert.mpr (Or.inr h)
  | writeBatch hashRank changes =>
    cases hm
    exact Changes.touches_extend.mpr (Or.inr h)

/-- A call that records operations for known schemas only succeeds directly as well. -/
theorem Represents.exists_mutate (h : tx.Represents direct) (hm : tx.mutate m = some tx')
    (hknown : ∀ s, tx'.changes.Touches s → tx.db.Knows s) :
    ∃ direct', direct.mutate m = some direct' ∧ tx'.Represents direct' := by
  -- The schemas of the operations are column families of the database.
  have hhandle : ∀ s, tx'.changes.Touches s → ∃ cf, direct.cfHandle s = some cf := by
    intro s hs
    exact RocksDB.knows_iff.mp ((h.knows_iff s).mpr (hknown s hs))
  -- A direct call that succeeds has the represented outcome.
  suffices hdirect : ∃ direct', direct.mutate m = some direct' by
    obtain ⟨direct', hdirect⟩ := hdirect
    obtain ⟨tx'', htx'', -, hrep⟩ := h.mutate hdirect
    cases hm.symm.trans htx''
    exact ⟨direct', hdirect, hrep⟩
  cases m with
  | put S key value =>
    obtain ⟨keyBytes, hkey, hrest⟩ := Option.bind_eq_some_iff.mp hm
    obtain ⟨valueBytes, hvalue, hsome⟩ := Option.bind_eq_some_iff.mp hrest
    cases hsome
    obtain ⟨cf, hcf⟩ := hhandle S.name (Changes.touches_insert.mpr (Or.inl rfl))
    refine ⟨direct.writeKey S.name keyBytes (.put valueBytes), ?_⟩
    show (toVec key).bind _ = _
    rw [hkey, Option.bind_some]
    show (toVec value).bind _ = _
    rw [hvalue, Option.bind_some, RocksDB.rawPut, hcf]
    rfl
  | delete S key =>
    obtain ⟨keyBytes, hkey, hsome⟩ := Option.bind_eq_some_iff.mp hm
    cases hsome
    obtain ⟨cf, hcf⟩ := hhandle S.name (Changes.touches_insert.mpr (Or.inl rfl))
    refine ⟨direct.writeKey S.name keyBytes .delete, ?_⟩
    show (toVec key).bind _ = _
    rw [hkey, Option.bind_some, RocksDB.rawDelete, hcf]
    rfl
  | writeBatch hashRank changes =>
    cases hm
    apply RocksDB.exists_rawWriteBatch
    intro s btree hs
    have htouched : (tx.changes.extend hashRank changes).Touches s :=
      Changes.touches_extend.mpr (Or.inl (Option.isSome_iff_exists.mpr ⟨btree, hs⟩))
    exact RocksDB.knows_iff.mpr (hhandle s htouched)

/-- Calls leave the database alone and drop no schema. -/
theorem touches_of_exec (hexec : exec mutate tx calls = some tx') :
    tx'.db = tx.db ∧ ∀ s, tx.changes.Touches s → tx'.changes.Touches s := by
  refine exec_invariant (I := fun t => t.db = tx.db ∧ ∀ s, tx.changes.Touches s → t.changes.Touches s)
    ?_ ⟨rfl, fun _ hs => hs⟩ hexec
  rintro t m t' - ⟨hdb, hkept⟩ hm
  exact ⟨(mutate_rebase hm t.db).1.trans hdb, fun s hs => touches_of_mutate hm (hkept s hs)⟩

/-- Calls that record operations for known schemas only succeed directly as well. -/
theorem Represents.exists_exec (h : tx.Represents direct)
    (hexec : exec InMemoryTransaction.mutate tx calls = some tx')
    (hknown : ∀ s, tx'.changes.Touches s → tx.db.Knows s) :
    ∃ direct', exec RocksDB.mutate direct calls = some direct' ∧ tx'.Represents direct' := by
  induction calls generalizing tx direct with
  | nil =>
    cases hexec
    exact ⟨direct, rfl, h⟩
  | cons m calls ih =>
    obtain ⟨tx₁, hm, hrest⟩ := exec_cons.mp hexec
    have hdb := (mutate_rebase hm tx.db).1
    have hkept := (touches_of_exec hrest).2
    obtain ⟨direct₁, hdirect₁, hrep₁⟩ := h.exists_mutate hm (fun s hs => hknown s (hkept s hs))
    obtain ⟨direct', hdirect', hrep'⟩ := ih hrep₁ hrest (fun s hs => hdb ▸ hknown s hs)
    exact ⟨direct', exec_cons.mpr ⟨direct₁, hdirect₁, hdirect'⟩, hrep'⟩

/-- **A commit is its calls**: a transaction that commits leaves the database that its calls leave
when they write to it directly. -/
theorem exec_of_commit {db db' : RocksDB} {hashRank : HashRank}
    (hexec : exec mutate (new db) calls = some tx)
    (hcommit : tx.commit hashRank = some db') : exec RocksDB.mutate db calls = some db' := by
  obtain ⟨htouched, -, -⟩ := RocksDB.rawWriteBatch_eq_some_iff.mp hcommit
  have hdb : tx.db = db := (touches_of_exec hexec).1
  obtain ⟨direct, hdirect, hrep⟩ := (represents_new db).exists_exec hexec (by
    intro s hs
    obtain ⟨btree, hbtree⟩ := Option.isSome_iff_exists.mp hs
    exact hdb ▸ htouched s btree hbtree)
  rw [hrep.commit hashRank] at hcommit
  cases hcommit
  exact hdirect

end InMemoryTransaction

/-! ## A handle and what borrows it -/

/-- A database, the transactions that were begun on it, in this order, and its snapshots.  What
remains of a transaction that has been committed or dropped is `none`. -/
structure Session where
  db : RocksDB
  transactions : List (Option Changes)
  snapshots : List RocksDB

/-- Calls on the handle and on its transactions. -/
inductive SessionCall where
  /-- `transaction`. -/
  | transaction
  /-- A mutating call on a transaction. -/
  | record (i : ℕ) (m : Mutation)
  /-- `commit`, with the order in which the hash map of the changes is handed out. -/
  | commit (i : ℕ) (hashRank : HashRank)
  /-- The transaction goes out of scope. -/
  | drop (i : ℕ)
  /-- A mutating call on the handle. -/
  | write (m : Mutation)
  /-- `snapshot`. -/
  | snapshot

namespace Session

/-- `RocksDB::open`. -/
def opened (db : RocksDB) : Session where
  db
  transactions := []
  snapshots := []

/-- A transaction that is still there; its reference to the database sees every commit. -/
def transaction (s : Session) (i : ℕ) : Option InMemoryTransaction := do
  let changes ← (s.transactions[i]?).join
  some { db := s.db, changes }

/-- A call; `none` where it panics or the borrow checker refuses it. -/
def step (s : Session) : SessionCall → Option Session
  | .transaction =>
    some { s with transactions := s.transactions ++ [some (InMemoryTransaction.new s.db).changes] }
  | .record i m => do
    let tx ← s.transaction i
    let tx ← tx.mutate m
    some { s with transactions := s.transactions.set i (some tx.changes) }
  | .commit i hashRank => do
    let tx ← s.transaction i
    let db ← tx.commit hashRank
    some { s with db, transactions := s.transactions.set i none }
  | .drop i => do
    let _ ← s.transaction i
    some { s with transactions := s.transactions.set i none }
  | .write m =>
    -- `&mut self` waits for the transactions that hold `&self`.
    if s.transactions.all Option.isNone then do
      let db ← s.db.mutate m
      some { s with db }
    else none
  | .snapshot => some { s with snapshots := s.snapshots ++ [s.db] }

end Session

/-- A session with the calls that each transaction has recorded, and the calls that have reached the
database: those of a transaction at its commit, and each call on the handle. -/
structure SessionHistory where
  session : Session
  recorded : List (List Mutation)
  commits : List (List Mutation)

namespace SessionHistory

def opened (db : RocksDB) : SessionHistory where
  session := .opened db
  recorded := []
  commits := []

/-- The calls that a transaction has recorded. -/
def calls (h : SessionHistory) (i : ℕ) : List Mutation := h.recorded[i]?.getD []

/-- What a call adds to the history. -/
def noted (h : SessionHistory) (session : Session) : SessionCall → SessionHistory
  | .transaction => { h with session, recorded := h.recorded ++ [[]] }
  | .record i m => { h with session, recorded := h.recorded.set i (h.calls i ++ [m]) }
  | .commit i _ => { h with session, commits := h.commits ++ [h.calls i] }
  | .write m => { h with session, commits := h.commits ++ [[m]] }
  | .drop _ | .snapshot => { h with session }

def step (h : SessionHistory) (call : SessionCall) : Option SessionHistory :=
  (h.session.step call).map fun session => h.noted session call

/-- The database is what the calls that have reached it make of the first one, one commit after the
other; and so is each snapshot, for the commits before it. -/
structure Serial (db : RocksDB) (h : SessionHistory) : Prop where
  committed : exec RocksDB.mutate db h.commits.flatten = some h.session.db
  snapshots : ∀ snapshot ∈ h.session.snapshots, ∃ before after, h.commits = before ++ after ∧
    exec RocksDB.mutate db before.flatten = some snapshot
  /-- A transaction reads the database as it is, under its own calls. -/
  reads : ∀ i tx, h.session.transaction i = some tx →
    ∀ direct, exec RocksDB.mutate h.session.db (h.calls i) = some direct →
      (∀ (S : Schema) (key : S.Key), tx.get S key = direct.get S key) ∧
      (∀ (S : Schema) (key : S.Key), tx.existsKey S key = direct.existsKey S key) ∧
      ∀ (lib : RocksLib) (S : Schema) (keys : List S.Key), RocksDB.ByteAscending keys →
        tx.multiGet lib S keys = direct.multiGet lib S keys

/-- What is known of a session. -/
structure Inv (db : RocksDB) (h : SessionHistory) : Prop where
  length_eq : h.recorded.length = h.session.transactions.length
  committed : exec RocksDB.mutate db h.commits.flatten = some h.session.db
  snapshots : ∀ snapshot ∈ h.session.snapshots, ∃ before after, h.commits = before ++ after ∧
    exec RocksDB.mutate db before.flatten = some snapshot
  /-- What a transaction has recorded does not depend on the database underneath. -/
  recorded : ∀ i changes, h.session.transactions[i]? = some (some changes) → ∀ db,
    exec InMemoryTransaction.mutate (.new db) (h.calls i) = some { db, changes }

variable {db : RocksDB} {h h' : SessionHistory} {call : SessionCall}

theorem inv_opened (db : RocksDB) : (opened db).Inv db where
  length_eq := rfl
  committed := rfl
  snapshots snapshot hmem := by cases hmem
  recorded i changes hi := by cases hi

/-- The changes of a transaction that is still there. -/
theorem transaction_eq_some {s : Session} {i : ℕ} {tx : InMemoryTransaction} :
    s.transaction i = some tx ↔ tx.db = s.db ∧ s.transactions[i]? = some (some tx.changes) := by
  rw [Session.transaction]
  constructor
  · intro h
    obtain ⟨changes, hchanges, hsome⟩ := Option.bind_eq_some_iff.mp h
    cases hsome
    exact ⟨rfl, Option.join_eq_some_iff.mp hchanges⟩
  · rintro ⟨hdb, hi⟩
    rw [hi, ← hdb]
    rfl

/-- More calls reach the database. -/
theorem Inv.committed_append (hinv : h.Inv db) {calls : List Mutation} {db' : RocksDB}
    (hcalls : exec RocksDB.mutate h.session.db calls = some db') :
    exec RocksDB.mutate db (h.commits ++ [calls]).flatten = some db' := by
  rw [List.flatten_append, List.flatten_singleton, exec_append]
  exact ⟨h.session.db, hinv.committed, hcalls⟩

/-- The snapshots remain what they are. -/
theorem Inv.snapshots_append (hinv : h.Inv db) (calls : List Mutation) :
    ∀ snapshot ∈ h.session.snapshots, ∃ before after, h.commits ++ [calls] = before ++ after ∧
      exec RocksDB.mutate db before.flatten = some snapshot := by
  intro snapshot hmem
  obtain ⟨before, after, hcommits, hbefore⟩ := hinv.snapshots snapshot hmem
  exact ⟨before, after ++ [calls], by rw [hcommits, List.append_assoc], hbefore⟩

/-- A transaction that is gone takes none of the others with it. -/
theorem Inv.recorded_set_none (hinv : h.Inv db) (i : ℕ) :
    ∀ j changes, (h.session.transactions.set i none)[j]? = some (some changes) → ∀ db,
      exec InMemoryTransaction.mutate (.new db) (h.calls j) = some { db, changes } := by
  intro j changes hj
  rw [List.getElem?_set] at hj
  split at hj
  · split at hj <;> cases hj
  · exact hinv.recorded j changes hj

/-- **One call** keeps the invariant. -/
theorem Inv.step (hinv : h.Inv db) (hstep : h.step call = some h') : h'.Inv db := by
  obtain ⟨session, hsession, rfl⟩ := Option.map_eq_some_iff.mp hstep
  cases call with
  | transaction =>
    cases hsession
    refine ⟨?_, hinv.committed, hinv.snapshots, ?_⟩
    · simp [noted, hinv.length_eq]
    · intro i changes hi db'
      have hcalls : (h.recorded ++ [[]])[i]?.getD [] = h.calls i := by
        rw [calls, List.getElem?_append]
        split
        next => rfl
        next hlen =>
          rw [List.getElem?_eq_none (not_lt.mp hlen)]
          cases i - h.recorded.length <;> rfl
      show exec InMemoryTransaction.mutate _ ((h.recorded ++ [[]])[i]?.getD []) = _
      rw [hcalls]
      change (h.session.transactions ++ [some ∅])[i]? = _ at hi
      rw [List.getElem?_append] at hi
      split at hi
      next => exact hinv.recorded i changes hi db'
      next hlen =>
        -- The new transaction has recorded nothing.
        have hnil : h.calls i = [] := by
          rw [calls, List.getElem?_eq_none (hinv.length_eq ▸ not_lt.mp hlen)]
          rfl
        cases List.mem_singleton.mp (List.mem_of_getElem? hi)
        rw [hnil]
        rfl
  | record i m =>
    obtain ⟨tx, htx, hrest⟩ := Option.bind_eq_some_iff.mp hsession
    obtain ⟨tx', hm, hsome⟩ := Option.bind_eq_some_iff.mp hrest
    cases hsome
    obtain ⟨-, hi⟩ := transaction_eq_some.mp htx
    refine ⟨?_, hinv.committed, hinv.snapshots, ?_⟩
    · simp [noted, hinv.length_eq]
    · intro j changes hj db'
      show exec InMemoryTransaction.mutate _ ((h.recorded.set i (h.calls i ++ [m]))[j]?.getD []) = _
      change (h.session.transactions.set i (some tx'.changes))[j]? = _ at hj
      by_cases hij : i = j
      · subst hij
        have hlt : i < h.session.transactions.length := (List.getElem?_eq_some_iff.mp hi).1
        rw [List.getElem?_set_self hlt] at hj
        cases hj
        rw [List.getElem?_set_self (hinv.length_eq ▸ hlt)]
        exact exec_concat.mpr ⟨_, hinv.recorded i tx.changes hi db',
          (InMemoryTransaction.mutate_rebase hm db').2⟩
      · rw [List.getElem?_set_ne hij] at hj ⊢
        exact hinv.recorded j changes hj db'
  | commit i hashRank =>
    obtain ⟨tx, htx, hrest⟩ := Option.bind_eq_some_iff.mp hsession
    obtain ⟨db', hcommit, hsome⟩ := Option.bind_eq_some_iff.mp hrest
    cases hsome
    obtain ⟨hdb, hi⟩ := transaction_eq_some.mp htx
    have hcalls := hinv.recorded i tx.changes hi h.session.db
    refine ⟨?_, ?_, hinv.snapshots_append _, hinv.recorded_set_none i⟩
    · simp [noted, hinv.length_eq]
    · apply hinv.committed_append
      apply InMemoryTransaction.exec_of_commit hcalls
      rw [← hdb]
      exact hcommit
  | drop i =>
    obtain ⟨tx, htx, hsome⟩ := Option.bind_eq_some_iff.mp hsession
    cases hsome
    refine ⟨?_, hinv.committed, hinv.snapshots, hinv.recorded_set_none i⟩
    simp [noted, hinv.length_eq]
  | write m =>
    rw [Session.step] at hsession
    split at hsession
    · obtain ⟨db', hwrite, hsome⟩ := Option.bind_eq_some_iff.mp hsession
      cases hsome
      refine ⟨hinv.length_eq, ?_, hinv.snapshots_append _, hinv.recorded⟩
      apply hinv.committed_append
      exact exec_cons.mpr ⟨db', hwrite, rfl⟩
    · cases hsession
  | snapshot =>
    cases hsession
    refine ⟨hinv.length_eq, hinv.committed, ?_, hinv.recorded⟩
    intro snapshot hmem
    rcases List.mem_append.mp hmem with hmem | hmem
    · exact hinv.snapshots snapshot hmem
    · cases List.mem_singleton.mp hmem
      exact ⟨h.commits, [], (List.append_nil _).symm, hinv.committed⟩

/-- A transaction answers as the database that its calls make of the one underneath. -/
theorem Inv.reads (hinv : h.Inv db) {i : ℕ} {tx : InMemoryTransaction}
    (htx : h.session.transaction i = some tx) {direct : RocksDB}
    (hdirect : exec RocksDB.mutate h.session.db (h.calls i) = some direct) :
    tx.Represents direct := by
  obtain ⟨hdb, hi⟩ := transaction_eq_some.mp htx
  have hstep : ∀ (tx : InMemoryTransaction) (direct : RocksDB) (m : Mutation) (direct' : RocksDB),
      tx.Represents direct → direct.mutate m = some direct' →
      ∃ tx', tx.mutate m = some tx' ∧ tx'.Represents direct' := by
    intro tx direct m direct' hrep hm
    obtain ⟨tx', htx', -, hrep'⟩ := hrep.mutate hm
    exact ⟨tx', htx', hrep'⟩
  obtain ⟨tx', htx', hrep⟩ :=
    exec_simulates hstep (InMemoryTransaction.represents_new h.session.db) hdirect
  rw [hinv.recorded i tx.changes hi] at htx'
  cases htx'
  rw [show tx = { db := h.session.db, changes := tx.changes } from by rw [← hdb]]
  exact hrep

theorem Inv.serial (hinv : h.Inv db) : h.Serial db where
  committed := hinv.committed
  snapshots := hinv.snapshots
  reads i tx htx direct hdirect := by
    have hrep := hinv.reads htx hdirect
    exact ⟨hrep.get_eq, hrep.existsKey_eq, fun lib S keys hkeys => hrep.multiGet_eq lib S hkeys⟩

end SessionHistory

/-- **Commits are serial.**  However calls on a handle and on the transactions it has lent itself to
are interleaved, the database is what the committed transactions make of it when they write to it
directly, one after the other in the order of their commits. -/
theorem commits_serial {db : RocksDB} {h : SessionHistory}
    (hreach : Reachable SessionHistory.step (.opened db) h) : h.Serial db :=
  (hreach.invariant (I := SessionHistory.Inv db) (fun _ _ _ hinv hstep => hinv.step hstep)
    (SessionHistory.inv_opened db)).serial

/-! ## Two transactions of the tests' schema -/

/-- Two transactions write the same key; the second one to commit wins.  A snapshot is taken in
between, and a third transaction is dropped. -/
def dummySession : List SessionCall :=
  [.transaction, .transaction, .record 0 (.put dummySchema (1 : UInt64) (100 : UInt64)),
    .record 1 (.put dummySchema (1 : UInt64) (200 : UInt64)), .transaction, .commit 1 (fun _ => 0),
    .snapshot, .record 2 (.delete dummySchema (1 : UInt64)), .drop 2, .commit 0 (fun _ => 0),
    .write (.put dummySchema (2 : UInt64) (300 : UInt64))]

theorem dummySession_succeeds :
    (exec SessionHistory.step (.opened dummyDb) dummySession).isSome = true := by
  decide +kernel

theorem commits_serial_dummy :
    ((exec SessionHistory.step (.opened dummyDb) dummySession).get dummySession_succeeds).Serial
      dummyDb :=
  commits_serial (reachable_get _)

end Tonic
