import Goblin.Store.Payload

/-! `RocksDBKVStore`: a map of records that only an atomic flush of the write batch changes. -/
namespace Goblin.Store

open Model Lib.Wire

/-- A stored value together with the fields of its `proto::Meta`. -/
structure Record where
  value : ValueType
  version : ℕ
  ttl : ℕ := INFINITE_TTL
  deadline : ℕ := NEVER_EXPIRE
  updateTime : ℕ := NOT_UPDATED
  udfMeta : UserDefinedMeta := DEFAULT_UDFMETA
  deriving DecidableEq, Repr

def Record.toMeta (r : Record) : Meta where
  version := r.version
  ttl := r.ttl
  deadline := r.deadline
  updateTime := r.updateTime
  udfMeta := if r.udfMeta.nonempty then some r.udfMeta else none

def bytesOf (s : String) : Bytes := s.toList.flatMap String.utf8EncodeChar

def stringOf (bs : Bytes) : String := (String.fromUTF8? ⟨bs.toArray⟩).getD ""

def udfProto (m : UserDefinedMeta) : Proto.UserDefinedMeta :=
  ⟨m.uintField.map UInt64.ofNat, m.strField.map bytesOf⟩

def udfOfProto (m : Proto.UserDefinedMeta) : UserDefinedMeta :=
  ⟨m.uintField.map UInt64.toNat, m.strField.map stringOf⟩

def metaOfProto (m : Proto.Meta) : Meta where
  version := m.version.toNat
  ttl := m.ttl.toNat
  deadline := m.deadline.toNat
  updateTime := m.updateTime.toNat
  udfMeta := m.udfMeta.map udfOfProto

/-- What is serialized for a record. -/
def Record.payload (r : Record) : Proto.Payload :=
  if r.ttl = INFINITE_TTL then
    RocksDBKVStore.normalPayload (bytesOf r.value) (UInt64.ofNat r.version) .SINGLE (UInt32.ofNat r.updateTime)
      (udfProto r.udfMeta)
  else
    RocksDBKVStore.ttlPayload (bytesOf r.value) (UInt64.ofNat r.version) (UInt32.ofNat r.ttl)
      (UInt32.ofNat r.deadline) .SINGLE (UInt32.ofNat r.updateTime) (udfProto r.udfMeta)

/-- The bytes under which a record is put into RocksDB. -/
def Record.raw (r : Record) : Bytes := RocksDBKVStore.toRaw r.payload.info.dataType r.payload

/-- The header can count the bytes of the meta, and the value is below two gigabytes. -/
def Record.Readable (r : Record) : Prop :=
  (Proto.Meta.message.encode r.payload.info).length ≤ 127 ∧ (Proto.Data.message.encode r.payload.data).length < 2 ^ 31

instance (r : Record) : Decidable r.Readable := inferInstanceAs (Decidable (_ ∧ _))

/-- What `readMeta` makes of the bytes of a record. -/
def Record.parseMeta (r : Record) : Status × Meta :=
  if r.Readable then (.ok, r.toMeta)
  else
    match RocksDBKVStore.parseMeta r.raw with
    | .ok info => (.ok, metaOfProto info)
    | .error s => (s, {})

/-- What `readKV` makes of the bytes of a record; no result where it asserts that they can be read back. -/
def Record.parseValue (r : Record) (now : ℕ) (key : KeyType) (out : ReadOut) : Option (Status × ReadOut) :=
  if r.Readable then
    if isTimeOut now r.deadline r.ttl then some (.notFound (key ++ " not found"), out)
    else some (.ok, { out with value := r.value, version := r.version })
  else
    match RocksDBKVStore.fromRawValue r.raw with
    | .ok ⟨info, .singleValue value⟩ =>
      if isTimeOut now info.deadline.toNat info.ttl.toNat then some (.notFound (key ++ " not found"), out)
      else some (.ok, { out with value := stringOf value, version := info.version.toNat })
    | _ => none

/-- What the cache keeps of a record; user defined fields live in a map of their own. -/
structure Cell where
  value : ValueType
  version : ℕ
  ttl : ℕ := INFINITE_TTL
  deadline : ℕ := NEVER_EXPIRE
  updateTime : ℕ := NOT_UPDATED
  deriving DecidableEq, Repr

def Record.cell (r : Record) : Cell := ⟨r.value, r.version, r.ttl, r.deadline, r.updateTime⟩

abbrev RecordMap := KeyType → Option Record

/-- `mGetError` holds the texts of the errors that RocksDB itself reports for a key. -/
structure RocksDBKVStore where
  mRocksDB : RecordMap := fun _ => none
  mWriteBatch : List (KeyType × Option Record) := []
  mMilestone : ℕ := 0
  mGetError : KeyType → Option String := fun _ => none

def applyBatch (m : RecordMap) : List (KeyType × Option Record) → RecordMap
  | [] => m
  | (key, r) :: rest => applyBatch (Function.update m key r) rest

namespace RocksDBKVStore

def writeTTLKV (db : RocksDBKVStore) (key : KeyType) (value : ValueType) (version : ℕ)
    (ttl : ℕ) (deadline updateTime : ℕ) (udfMeta : UserDefinedMeta) : RocksDBKVStore :=
  { db with mWriteBatch :=
      db.mWriteBatch ++ [(key, some ⟨value, version, ttl, deadline, updateTime, udfMeta⟩)] }

/-- The meta of a plain record has neither a ttl nor a deadline. -/
def writeKV (db : RocksDBKVStore) (key : KeyType) (value : ValueType) (version : ℕ)
    (updateTime : ℕ) (udfMeta : UserDefinedMeta) : RocksDBKVStore :=
  db.writeTTLKV key value version INFINITE_TTL NEVER_EXPIRE updateTime udfMeta

def deleteKV (db : RocksDBKVStore) (key : KeyType) : RocksDBKVStore :=
  { db with mWriteBatch := db.mWriteBatch ++ [(key, none)] }

/-- `RocksDBKVStore::readKV` with its assertion. -/
def readRaw (db : RocksDBKVStore) (now : ℕ) (key : KeyType) (out : ReadOut) : Option (Status × ReadOut) :=
  match db.mGetError key with
  | some msg => some (.error msg, out)
  | none =>
    match db.mRocksDB key with
    | none => some (.notFound (key ++ " not found"), out)
    | some r => r.parseValue now key out

/-- `readKV` where the assertion holds: it leaves the ttl of the caller untouched, and only sees flushed records. -/
def readKV (db : RocksDBKVStore) (now : ℕ) (key : KeyType) (out : ReadOut) :
    Status × ReadOut :=
  match db.mGetError key with
  | some msg => (.error msg, out)
  | none =>
    match db.mRocksDB key with
    | none => (.notFound (key ++ " not found"), out)
    | some r =>
      if isTimeOut now r.deadline r.ttl then (.notFound (key ++ " not found"), out)
      else (.ok, { out with value := r.value, version := r.version })

def readMeta (db : RocksDBKVStore) (key : KeyType) : Status × Meta :=
  match db.mGetError key with
  | some msg => (.error msg, {})
  | none =>
    match db.mRocksDB key with
    | none => (.notFound "NotFound: ", {})
    | some r => r.parseMeta

/-- Every read of RocksDB is answered from a record that can be parsed, or there is none. -/
structure Healthy (db : RocksDBKVStore) : Prop where
  noError : ∀ key, db.mGetError key = none
  readable : ∀ key r, db.mRocksDB key = some r → r.Readable

def flushToRocksDB (db : RocksDBKVStore) : RocksDBKVStore :=
  { db with mRocksDB := applyBatch db.mRocksDB db.mWriteBatch, mWriteBatch := [] }

/-- The milestone is part of the batch, so it is persisted together with the records. -/
def commit (db : RocksDBKVStore) (milestone : ℕ) : RocksDBKVStore :=
  { db.flushToRocksDB with mMilestone := milestone }

end RocksDBKVStore

theorem applyBatch_append (m : RecordMap) (b c : List (KeyType × Option Record)) :
    applyBatch m (b ++ c) = applyBatch (applyBatch m b) c := by
  induction b generalizing m with
  | nil => rfl
  | cons w b ih => exact ih _

end Goblin.Store
