import Goblin.Store.RocksDB

/-! `InMemoryKVStore`: the leader's cache over a read only RocksDB delegate. -/
namespace Goblin.Store

open Model Function

theorem disjoint_empty : ∀ _ : KeyType, (none : Option Cell).isSome → (none : Option ℕ) = none := by simp

/-- A key is never held in `mData` and in `mDeletedData` at once. -/
structure InMemoryKVStore where
  mData : KeyType → Option Cell := fun _ => none
  mUdfMetaMap : KeyType → Option UserDefinedMeta := fun _ => none
  mDeletedData : KeyType → Option ℕ := fun _ => none
  disjoint : ∀ key, (mData key).isSome → mDeletedData key = none := by exact disjoint_empty

namespace InMemoryKVStore

/-- Removing cells keeps the two maps disjoint. -/
def eraseData (s : InMemoryKVStore) (key : KeyType) : InMemoryKVStore :=
  { s with
    mData := update s.mData key none
    disjoint := by
      intro k hk
      by_cases he : k = key
      · simp [he] at hk
      · exact s.disjoint k (by simpa [he] using hk) }

/-- A write without user defined fields keeps the fields of the value it replaces. -/
def writeTTLKV (s : InMemoryKVStore) (key : KeyType) (value : ValueType) (version : ℕ)
    (ttl : ℕ) (deadline updateTime : ℕ) (udfMeta : UserDefinedMeta) :
    InMemoryKVStore where
  mData := update s.mData key (some ⟨value, version, ttl, deadline, updateTime⟩)
  mUdfMetaMap :=
    if udfMeta.nonempty then update s.mUdfMetaMap key (some udfMeta) else s.mUdfMetaMap
  mDeletedData := update s.mDeletedData key none
  disjoint := by
    intro k hk
    by_cases he : k = key
    · simp [he]
    · simpa [he] using s.disjoint k (by simpa [he] using hk)

def writeKV (s : InMemoryKVStore) (key : KeyType) (value : ValueType) (version : ℕ)
    (updateTime : ℕ) (udfMeta : UserDefinedMeta) : InMemoryKVStore :=
  s.writeTTLKV key value version INFINITE_TTL NEVER_EXPIRE updateTime udfMeta

/-- An expired cell is erased by the read that finds it; its out parameters stay unassigned. -/
def readKV (s : InMemoryKVStore) (db : RocksDBKVStore) (now : ℕ) (key : KeyType)
    (out : ReadOut) : (Status × ReadOut) × InMemoryKVStore :=
  match s.mData key with
  | none =>
    match s.mDeletedData key with
    | some version => ((.notFound (key ++ " not found"), { out with version := version }), s)
    | none => (db.readKV now key out, s)
  | some c =>
    if isTimeOut now c.deadline c.ttl then
      ((.notFound (key ++ " not found"), out), s.eraseData key)
    else ((.ok, ⟨c.value, c.ttl, c.version⟩), s)

def readKVFromProxy (_ : InMemoryKVStore) (db : RocksDBKVStore) (now : ℕ) (key : KeyType)
    (out : ReadOut) : Status × ReadOut :=
  db.readKV now key out

/-- Only a key that is held in `mData` leaves a deletion record, and an older record is kept. -/
def deleteKV (s : InMemoryKVStore) (key : KeyType) (deleteRecordVersion : ℕ) :
    InMemoryKVStore :=
  match s.mData key with
  | none => s
  | some _ =>
    { mData := update s.mData key none
      mUdfMetaMap := update s.mUdfMetaMap key none
      mDeletedData := update s.mDeletedData key
        (some ((s.mDeletedData key).getD deleteRecordVersion))
      disjoint := by
        intro k hk
        by_cases he : k = key
        · simp [he] at hk
        · simpa [he] using s.disjoint k (by simpa [he] using hk) }

/-- Deletion records and deadlines play no part in `readMeta`. -/
def readMeta (s : InMemoryKVStore) (db : RocksDBKVStore) (key : KeyType) : Status × Meta :=
  match s.mData key with
  | none => db.readMeta key
  | some c => (.ok, ⟨c.version, c.ttl, c.deadline, c.updateTime, s.mUdfMetaMap key⟩)

def readMetaFromProxy (_ : InMemoryKVStore) (db : RocksDBKVStore) (key : KeyType) : Status × Meta :=
  db.readMeta key

def clear (_ : InMemoryKVStore) : InMemoryKVStore := {}

def erase (s : InMemoryKVStore) (key : KeyType) : InMemoryKVStore where
  mData := update s.mData key none
  mUdfMetaMap := update s.mUdfMetaMap key none
  mDeletedData := update s.mDeletedData key none
  disjoint := by
    intro k hk
    by_cases he : k = key
    · simp [he]
    · simpa [he] using s.disjoint k (by simpa [he] using hk)

/-- One round of the loop of `evictKV`. -/
def evictKey (s : InMemoryKVStore) (db : RocksDBKVStore) (now : ℕ) (key : KeyType)
    (guardVersion : ℕ) : InMemoryKVStore :=
  let ((st, out), s') := s.readKV db now key {}
  if st.isOK then
    if out.version > guardVersion then s' else s'.erase key
  else s'

def evictKV (s : InMemoryKVStore) (db : RocksDBKVStore) (now : ℕ) (keys : List KeyType)
    (guardVersion : ℕ) : InMemoryKVStore :=
  keys.foldl (fun s key => s.evictKey db now key guardVersion) s

end InMemoryKVStore

end Goblin.Store
