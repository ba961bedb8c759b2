import Goblin.Lib.Replay
import Goblin.Store.InMemory

/-! Model events: what a command hands to the log, and what the log hands to the stores. -/
namespace Goblin.Model

open Store List

/-- The virtual write operations of `KVStore`. -/
class KVStore (σ : Type) where
  writeKV : σ → KeyType → ValueType → ℕ → ℕ → UserDefinedMeta → σ
  writeTTLKV : σ → KeyType → ValueType → ℕ → ℕ → ℕ → ℕ →
    UserDefinedMeta → σ
  deleteKV : σ → KeyType → ℕ → ℕ → σ

instance : KVStore InMemoryKVStore where
  writeKV := InMemoryKVStore.writeKV
  writeTTLKV := InMemoryKVStore.writeTTLKV
  deleteKV s key deleteRecordVersion _ := s.deleteKV key deleteRecordVersion

instance : KVStore RocksDBKVStore where
  writeKV := RocksDBKVStore.writeKV
  writeTTLKV := RocksDBKVStore.writeTTLKV
  deleteKV db key _ _ := db.deleteKV key

structure WriteEvent where
  mKey : KeyType
  mValue : ValueType
  mVersion : ℕ := kInvalidVersion
  mEnableTTL : Bool := false
  mTTL : ℕ := INFINITE_TTL
  mDeadline : ℕ := NEVER_EXPIRE
  mUpdateTime : ℕ := NOT_UPDATED
  mUdfMeta : UserDefinedMeta := DEFAULT_UDFMETA
  mIsNoOp : Bool := false
  deriving DecidableEq, Repr

structure ReadEvent where
  mKey : KeyType
  mValue : ValueType
  mTTL : ℕ
  mVersion : ℕ
  mIsNotFound : Bool
  mUpdateTime : ℕ := NOT_UPDATED
  mUdfMeta : UserDefinedMeta := DEFAULT_UDFMETA
  deriving DecidableEq, Repr

structure DeleteEvent where
  mKey : KeyType
  mDeletedValue : ValueType
  mDeletedVersion : ℕ
  mVersion : ℕ := kInvalidVersion
  deriving DecidableEq, Repr

structure ImportEvent where
  mWriteEvent : WriteEvent
  mImportedVersion : ℕ
  deriving DecidableEq, Repr

inductive Event
  | read (e : ReadEvent)
  | write (e : WriteEvent)
  | delete (e : DeleteEvent)
  | importKV (e : ImportEvent)
  deriving DecidableEq, Repr

def WriteEvent.apply {σ : Type} [KVStore σ] (e : WriteEvent) (kvStore : σ) : σ :=
  if e.mIsNoOp then kvStore
  else if e.mEnableTTL then
    KVStore.writeTTLKV kvStore e.mKey e.mValue e.mVersion e.mTTL e.mDeadline e.mUpdateTime e.mUdfMeta
  else KVStore.writeKV kvStore e.mKey e.mValue e.mVersion e.mUpdateTime e.mUdfMeta

/-- The record that a write leaves in RocksDB. -/
def WriteEvent.record (e : WriteEvent) : Record where
  value := e.mValue
  version := e.mVersion
  ttl := if e.mEnableTTL then e.mTTL else INFINITE_TTL
  deadline := if e.mEnableTTL then e.mDeadline else NEVER_EXPIRE
  updateTime := e.mUpdateTime
  udfMeta := e.mUdfMeta

namespace Event

def apply {σ : Type} [KVStore σ] (kvStore : σ) : Event → σ
  | .read _ => kvStore
  | .write e => e.apply kvStore
  | .delete e => KVStore.deleteKV kvStore e.mKey e.mVersion e.mDeletedVersion
  | .importKV e => e.mWriteEvent.apply kvStore

def applyAll {σ : Type} [KVStore σ] (kvStore : σ) (events : List Event) : σ :=
  events.foldl apply kvStore

/-- `assignVersion` asserts that a write or a delete has no version yet. -/
def assignVersion (version : ℕ) : Event → Option Event
  | .read e => some (.read e)
  | .write e =>
    if e.mVersion = kInvalidVersion then some (.write { e with mVersion := version }) else none
  | .delete e =>
    if e.mVersion = kInvalidVersion then some (.delete { e with mVersion := version }) else none
  | .importKV e =>
    if e.mWriteEvent.mVersion = kInvalidVersion then
      some (.importKV { e with mWriteEvent := { e.mWriteEvent with mVersion := version } })
    else none

/-- The event under another version; a read keeps the version it has read. -/
def setVersion (version : ℕ) : Event → Event
  | .read e => .read e
  | .write e => .write { e with mVersion := version }
  | .delete e => .delete { e with mVersion := version }
  | .importKV e => .importKV { e with mWriteEvent := { e.mWriteEvent with mVersion := version } }

def version : Event → ℕ
  | .read _ => kInvalidVersion
  | .write e => e.mVersion
  | .delete e => e.mVersion
  | .importKV e => e.mWriteEvent.mVersion

/-- The meaning of an event as an update of the map from keys to records. -/
def effect : Event → Option (KeyType × Option Record)
  | .read _ => none
  | .write e => if e.mIsNoOp then none else some (e.mKey, some e.record)
  | .delete e => some (e.mKey, none)
  | .importKV e =>
    if e.mWriteEvent.mIsNoOp then none else some (e.mWriteEvent.mKey, some e.mWriteEvent.record)

theorem effect_setVersion (e : Event) (version : ℕ) : (e.setVersion version).effect =
    e.effect.map fun w => (w.1, w.2.map fun r => { r with version := version }) := by
  cases e with
  | read e | delete e => rfl
  | write e =>
    simp only [setVersion, effect]
    split_ifs <;> rfl
  | importKV e =>
    simp only [setVersion, effect]
    split_ifs <;> rfl

theorem version_of_effect {e : Event} {key : KeyType} {r : Record} (he : e.effect = some (key, some r)) :
    r.version = e.version := by
  cases e with
  | read e => cases he
  | write e | importKV e =>
    simp only [effect] at he
    split_ifs at he
    cases he
    rfl
  | delete e => cases he

end Event

section MapM

variable {α β : Type} {f : α → Option β} {as : List α} {bs : List β}

theorem mapM_cons_eq_some {a : α} :
    (a :: as).mapM f = some bs ↔ ∃ b cs, f a = some b ∧ as.mapM f = some cs ∧ bs = b :: cs := by
  simp only [mapM_cons, Option.pure_def, Option.bind_eq_bind, Option.bind_eq_some_iff,
    Option.some.injEq]
  exact ⟨fun ⟨b, hb, cs, hcs, he⟩ => ⟨b, cs, hb, hcs, he.symm⟩,
    fun ⟨b, cs, hb, hcs, he⟩ => ⟨b, hb, cs, hcs, he.symm⟩⟩

theorem exists_mem_of_mapM_left (h : as.mapM f = some bs) {a : α} (ha : a ∈ as) :
    ∃ b ∈ bs, f a = some b := by
  induction as generalizing bs with
  | nil => cases ha
  | cons a' as ih =>
    obtain ⟨b, cs, hb, hcs, rfl⟩ := mapM_cons_eq_some.mp h
    rcases mem_cons.mp ha with rfl | ha
    · exact ⟨b, mem_cons_self, hb⟩
    · obtain ⟨c, hc, hac⟩ := ih hcs ha
      exact ⟨c, mem_cons_of_mem _ hc, hac⟩

theorem exists_mem_of_mapM_right (h : as.mapM f = some bs) {b : β} (hb : b ∈ bs) :
    ∃ a ∈ as, f a = some b := by
  induction as generalizing bs with
  | nil =>
    cases h
    cases hb
  | cons a as ih =>
    obtain ⟨c, cs, hc, hcs, rfl⟩ := mapM_cons_eq_some.mp h
    rcases mem_cons.mp hb with rfl | hb
    · exact ⟨a, mem_cons_self, hc⟩
    · obtain ⟨a', ha', hab⟩ := ih hcs hb
      exact ⟨a', mem_cons_of_mem _ ha', hab⟩

end MapM

theorem Event.assignVersion_of_version {e : Event} (version : ℕ) (h : e.version = kInvalidVersion) :
    e.assignVersion version = some (e.setVersion version) := by
  cases e with
  | read e => rfl
  | write e | delete e | importKV e => exact if_pos h

theorem Event.mapM_assignVersion {es : List Event} (version : ℕ)
    (h : ∀ e ∈ es, e.version = kInvalidVersion) :
    es.mapM (Event.assignVersion version) = some (es.map (Event.setVersion version)) := by
  induction es with
  | nil => rfl
  | cons e es ih =>
    rw [mapM_cons, Event.assignVersion_of_version version (h e mem_cons_self),
      ih fun f hf => h f (mem_cons_of_mem _ hf)]
    rfl

theorem Event.setVersion_of_version {e : Event} {version : ℕ} (h : e.version = version) :
    e.setVersion version = e := by
  subst h
  cases e <;> rfl

/-- The version of the first event; a bundle is never empty. -/
def getVersionFromBundle (bundle : List Event) : ℕ :=
  bundle.head?.elim kInvalidVersion Event.version

/-- The map from keys to records after the events. -/
abbrev replay (m : RecordMap) (events : List Event) : RecordMap :=
  Lib.replayOn Event.effect m events

theorem replay_append (m : RecordMap) (es fs : List Event) :
    replay m (es ++ fs) = replay (replay m es) fs :=
  Lib.replayOn_append Event.effect m es fs

theorem replay_eq_getLastD (m : RecordMap) (key : KeyType) (es : List Event) :
    replay m es key = (Lib.sets Event.effect key es).getLastD (m key) :=
  Lib.replayOn_eq_getLastD Event.effect m key es

theorem WriteEvent.apply_memory (e : WriteEvent) (s : InMemoryKVStore) (h : e.mIsNoOp = false) :
    e.apply s = s.writeTTLKV e.mKey e.mValue e.mVersion e.record.ttl e.record.deadline e.mUpdateTime
      e.mUdfMeta := by
  cases ht : e.mEnableTTL <;>
    simp [WriteEvent.apply, WriteEvent.record, KVStore.writeKV, KVStore.writeTTLKV,
      InMemoryKVStore.writeKV, h, ht]

theorem Event.apply_rocksDB (db : RocksDBKVStore) (e : Event) :
    e.apply db = { db with mWriteBatch := db.mWriteBatch ++ e.effect.toList } := by
  have hw (w : WriteEvent) : w.apply db = { db with mWriteBatch := db.mWriteBatch ++
      (if w.mIsNoOp then none else some (w.mKey, some w.record)).toList } := by
    cases hn : w.mIsNoOp <;> cases ht : w.mEnableTTL <;>
      simp [WriteEvent.apply, WriteEvent.record, KVStore.writeKV, KVStore.writeTTLKV,
        RocksDBKVStore.writeKV, RocksDBKVStore.writeTTLKV, hn, ht]
  cases e with
  | read e => simp [Event.apply, Event.effect]
  | write e => exact hw e
  | delete e => simp [Event.apply, Event.effect, KVStore.deleteKV, RocksDBKVStore.deleteKV]
  | importKV e => exact hw e.mWriteEvent

theorem Event.applyAll_rocksDB (db : RocksDBKVStore) (es : List Event) :
    Event.applyAll db es = { db with mWriteBatch := db.mWriteBatch ++ es.filterMap Event.effect } := by
  induction es generalizing db with
  | nil => simp [Event.applyAll]
  | cons e es ih =>
    have hcons : Event.applyAll db (e :: es) = Event.applyAll (e.apply db) es := rfl
    rw [hcons, ih, Event.apply_rocksDB]
    cases he : e.effect <;> simp [he]

theorem applyBatch_effects (m : RecordMap) (es : List Event) :
    applyBatch m (es.filterMap Event.effect) = replay m es := by
  induction es generalizing m with
  | nil => rfl
  | cons e es ih =>
    have hcons : replay m (e :: es) = replay (Lib.applyEffect Event.effect m e) es := rfl
    rw [hcons, ← ih]
    cases he : e.effect <;> simp [he, Lib.applyEffect, applyBatch]

end Goblin.Model
