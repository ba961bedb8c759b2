import Goblin.Command.Basic

/-! `TemporalKVStore`: the overlay in which a transaction sees its own writes. -/
namespace Goblin.Store

open Model Function

structure TemporalKVStore where
  mData : KeyType → Option Cell := fun _ => none
  mUdfMetaMap : KeyType → Option UserDefinedMeta := fun _ => none
  mDeletedData : KeyType → Bool := fun _ => false

namespace TemporalKVStore

def writeTTLKV (t : TemporalKVStore) (key : KeyType) (value : ValueType) (version : ℕ)
    (ttl : ℕ) (deadline updateTime : ℕ) (udfMeta : UserDefinedMeta) : TemporalKVStore where
  mData := update t.mData key (some ⟨value, version, ttl, deadline, updateTime⟩)
  mUdfMetaMap :=
    if udfMeta.nonempty then update t.mUdfMetaMap key (some udfMeta) else t.mUdfMetaMap
  mDeletedData := update t.mDeletedData key false

def writeKV (t : TemporalKVStore) (key : KeyType) (value : ValueType) (version : ℕ)
    (updateTime : ℕ) (udfMeta : UserDefinedMeta) : TemporalKVStore :=
  t.writeTTLKV key value version INFINITE_TTL NEVER_EXPIRE updateTime udfMeta

def deleteKV (t : TemporalKVStore) (key : KeyType) : TemporalKVStore where
  mData := update t.mData key none
  mUdfMetaMap := update t.mUdfMetaMap key none
  mDeletedData := update t.mDeletedData key true

/-- The delegate is the processor's store, seen through `ReadOnlyKVStore`. -/
def readKV (t : TemporalKVStore) (key : KeyType) (out : ReadOut) :
    StoreProg ((Status × ReadOut) × TemporalKVStore) :=
  match t.mData key with
  | none =>
    if t.mDeletedData key then return ((.notFound (key ++ " not found"), out), t)
    else do
      let r ← Model.readKV key out
      return (r, t)
  | some c => do
    let now ← secondsSinceEpoch
    if isTimeOut now c.deadline c.ttl then
      return ((.notFound (key ++ " not found"), out), { t with mData := update t.mData key none })
    else return ((.ok, ⟨c.value, c.ttl, c.version⟩), t)

/-- The overlay's proxy is the processor's store, not RocksDB behind it. -/
def readKVFromProxy (_ : TemporalKVStore) (key : KeyType) (out : ReadOut) :
    StoreProg (Status × ReadOut) :=
  Model.readKV key out

end TemporalKVStore

/-- The overlay holds nothing for the key. -/
def Free (t : TemporalKVStore) (key : KeyType) : Prop :=
  t.mData key = none ∧ t.mDeletedData key = false

end Goblin.Store
