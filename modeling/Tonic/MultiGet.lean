/-
# Batched lookups

`multi_get` asks that the keys be sorted, and its caller sorts typed keys; the library
underneath wants their encodings sorted.  The batched lookup of the database agrees with
single lookups exactly where the encodings ascend too.  A transaction that has touched the
schema looks up every key by itself and needs no order.
-/
import Tonic.KeyIteration

namespace Tonic

open RelatedLists

namespace RocksLib

/-- A library that answers ascending keys as promised, and anything else with `other`. -/
def promising (other : List (Option Bytes)) : RocksLib where
  batchedMultiGet cf keys :=
    if keys.Pairwise (fun a b => (compare a b).isLE) then keys.map (cf[·]?) else other
  batchedMultiGet_sorted _ _ hkeys := if_pos hkeys

/-- One pass over a column family: what lies before the key just looked up is left behind. -/
def forwardLookups (cf : BTreeMap Bytes) : List Bytes → List (Option Bytes)
  | [] => []
  | key :: keys =>
    cf[key]? :: forwardLookups (cf.filter fun b _ => (compare key b).isLE) keys

/-- One pass finds ascending keys. -/
theorem forwardLookups_sorted (cf : BTreeMap Bytes) (keys : List Bytes)
    (hkeys : keys.Pairwise fun a b => (compare a b).isLE) :
    forwardLookups cf keys = keys.map (cf[·]?) := by
  induction keys generalizing cf with
  | nil => rfl
  | cons key keys ih =>
    obtain ⟨hkey, hrest⟩ := List.pairwise_cons.mp hkeys
    rw [forwardLookups, ih _ hrest, List.map_cons]
    congr 1
    apply List.map_congr_left
    intro b hb
    rw [Std.ExtTreeMap.getElem?_filter']
    cases cf[b]? with
    | none => rfl
    | some value => simp [Option.filter, hkey b hb]

def forwardPass : RocksLib where
  batchedMultiGet := forwardLookups
  batchedMultiGet_sorted := forwardLookups_sorted

end RocksLib

/-- The keys ascend. -/
def KeyAscending {K : Type} [BorshSerialize K] [BorshDeserialize K] [BorshFits K] [BorshInteger K]
    (keys : List K) : Prop :=
  keys.Pairwise fun a b => toInt a ≤ toInt b

namespace RocksDB

/-- Batched lookups of the keys answer as single ones, in the database and in every transaction
over it, whatever it has touched. -/
def MultiGetAgrees (db : RocksDB) (S : Schema) (keys : List S.Key) : Prop :=
  ∀ lib : RocksLib, db.multiGet lib S keys = keys.mapM (db.get S) ∧
    ∀ tx : InMemoryTransaction, tx.db = db → tx.multiGet lib S keys = keys.mapM (tx.get S)

end RocksDB

namespace InMemoryTransaction

variable {tx : InMemoryTransaction} {S : Schema}

/-- A touched schema is looked up key by key, in any order. -/
theorem multiGet_of_touched (lib : RocksLib) {btree : BTreeMap WriteOperation}
    (htouched : tx.changes[S.name]? = some btree) (keys : List S.Key) :
    tx.multiGet lib S keys = keys.mapM (tx.get S) := by
  have hkey : tx.multiGetKey S btree = tx.get S := by
    funext key
    rw [multiGetKey, get]
    simp only [getFromChanges, htouched, Option.bind_some]
  rw [multiGet, htouched]
  exact congrArg (fun f => keys.mapM f) hkey

/-- A schema that was not touched is read through. -/
theorem get_of_untouched (huntouched : tx.changes[S.name]? = none) :
    tx.get S = tx.db.get S := by
  funext key
  rw [get, RocksDB.get]
  simp only [getFromChanges, huntouched, Option.bind_none]

theorem multiGet_of_untouched (lib : RocksLib) (huntouched : tx.changes[S.name]? = none)
    (keys : List S.Key) : tx.multiGet lib S keys = tx.db.multiGet lib S keys := by
  rw [multiGet, huntouched]

end InMemoryTransaction

namespace RocksDB

variable {db : RocksDB} {S : Schema} {keys : List S.Key}

/-- What the transactions answer follows from what the database answers. -/
theorem multiGetAgrees_of_database
    (h : ∀ lib : RocksLib, db.multiGet lib S keys = keys.mapM (db.get S)) :
    db.MultiGetAgrees S keys := by
  intro lib
  refine ⟨h lib, fun tx htx => ?_⟩
  cases htouched : tx.changes[S.name]? with
  | some btree => exact tx.multiGet_of_touched lib htouched keys
  | none =>
    rw [tx.multiGet_of_untouched lib htouched, tx.get_of_untouched htouched, htx]
    exact h lib

/-- A library that answers nothing where the encodings do not ascend is told apart. -/
theorem multiGet_promising_ne [BorshInteger S.Key] (hknown : db.Knows S.name)
    (hkeys : ¬ ByteAscending keys) :
    db.multiGet (.promising []) S keys ≠ keys.mapM (db.get S) := by
  obtain ⟨cf, hcf⟩ := knows_iff.mp hknown
  have hbytes : keys.mapM toVec = some (keys.map serialize) :=
    (mapM_eq_some_iff toVec_eq_some_iff).mpr ⟨fun key _ => BorshInteger.fits_eq key, rfl⟩
  have hunsorted : ¬ (keys.map serialize).Pairwise fun a b => (compare a b).isLE :=
    fun hsorted => hkeys (List.pairwise_map.mp hsorted)
  have hempty : db.multiGet (.promising []) S keys = some [] := by
    rw [multiGet, hbytes]
    show (db.rawMultiGet (.promising []) S.name (keys.map serialize)).bind _ = _
    rw [rawMultiGet, hcf]
    show (RocksLib.batchedMultiGet (.promising []) cf (keys.map serialize)).mapM _ = _
    rw [show RocksLib.batchedMultiGet (.promising []) cf (keys.map serialize) = []
      from if_neg hunsorted]
    rfl
  rw [hempty]
  intro heq
  -- single lookups answer for every key, and there is a key
  have hlength := (mapM_eq_some_iff_forall₂.mp heq.symm).length_eq
  rw [List.length_nil, List.length_eq_zero_iff] at hlength
  subst hlength
  exact hkeys List.Pairwise.nil

/-- **When batched lookups of ascending keys agree with single ones**: exactly where the encodings
of the keys ascend bytewise. -/
theorem multiGetAgrees_iff [BorshInteger S.Key] (hknown : db.Knows S.name) (keys : List S.Key) :
    (KeyAscending keys → db.MultiGetAgrees S keys) ↔ (KeyAscending keys → ByteAscending keys) := by
  refine imp_congr_right fun _ => ⟨fun hagrees => ?_, fun hbytes => ?_⟩
  · by_contra hkeys
    exact multiGet_promising_ne hknown hkeys (hagrees (.promising [])).1
  · exact multiGetAgrees_of_database fun lib => multiGet_of_ascending lib hknown hbytes

end RocksDB

/-- The keys of the test are encoded in order. -/
theorem RocksDB.multiGetAgrees_iff_oneToThree :
    oneToThree.MultiGetAgrees dummySchema [(1 : UInt64), (2 : UInt64), (3 : UInt64)] := by
  have hknown : oneToThree.Knows dummySchema.name := by
    unfold RocksDB.Knows
    decide +kernel
  refine (RocksDB.multiGetAgrees_iff (S := dummySchema) hknown _).mpr (fun _ => ?_) ?_
  · unfold RocksDB.ByteAscending
    decide
  · unfold KeyAscending
    decide

/-- One pass over the column family does not come back for the key 256. -/
theorem not_multiGetAgrees_oneAnd256 :
    KeyAscending [(1 : UInt64), (256 : UInt64)] ∧
      ¬ oneAnd256.MultiGetAgrees dummySchema [(1 : UInt64), (256 : UInt64)] := by
  constructor
  · unfold KeyAscending
    decide
  · intro hagrees
    have heq := (hagrees .forwardPass).1
    revert heq
    decide +kernel

end Tonic
