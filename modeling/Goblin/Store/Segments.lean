import Goblin.Lib.Shards
import Goblin.Store.InMemory
import Goblin.Store.KeyLocks

/-! `ConcurInMemoryKVStore` and `WSConcurInMemoryKVStore`: the cache as a family of `InMemoryKVStore`s, one
for each segment of each working set. -/
namespace Goblin.Store

open Model Lib Option

/-- What the proxy of the cache eviction submits to its thread. -/
inductive KVObserveEvent
  | READ (key : KeyType)
  | WRITE (key : KeyType) (valueSize : ℕ)
  deriving DecidableEq, Repr

namespace CacheEvictionProxy

def onReadValue (key : KeyType) : List KVObserveEvent := [.READ key]

def onWriteValue (key : KeyType) (value : ValueType) : List KVObserveEvent :=
  [.WRITE key value.utf8ByteSize]

/-- Nothing is submitted for an eviction. -/
def onEvictKeys (_ : List KeyType) : List KVObserveEvent := []

end CacheEvictionProxy

/-- What a call returns and assigns to its out parameters. -/
inductive Reply
  | done (s : Status)
  | read (s : Status) (out : ReadOut)
  | readMeta (s : Status) (m : Meta)
  deriving DecidableEq, Repr

/-- A reply together with what the observer of the store has submitted. -/
structure Answer where
  reply : Reply
  submitted : List KVObserveEvent := []
  deriving DecidableEq, Repr

/-! The operations of an `InMemoryKVStore` with the calls of its observer. -/
namespace ObservedKVStore

open CacheEvictionProxy

def writeKV (key : KeyType) (value : ValueType) (version updateTime : ℕ) (udfMeta : UserDefinedMeta)
    (s : InMemoryKVStore) : Answer × InMemoryKVStore :=
  (⟨.done .ok, onWriteValue key value⟩, s.writeKV key value version updateTime udfMeta)

def writeTTLKV (key : KeyType) (value : ValueType) (version ttl deadline updateTime : ℕ)
    (udfMeta : UserDefinedMeta) (s : InMemoryKVStore) : Answer × InMemoryKVStore :=
  (⟨.done .ok, onWriteValue key value⟩,
    s.writeTTLKV key value version ttl deadline updateTime udfMeta)

/-- Only a cell that is held and has not timed out is announced as read. -/
def readEvents (now : ℕ) (key : KeyType) (s : InMemoryKVStore) : List KVObserveEvent :=
  match s.mData key with
  | none => []
  | some c => if isTimeOut now c.deadline c.ttl then [] else onReadValue key

def readKV (db : RocksDBKVStore) (now : ℕ) (key : KeyType) (out : ReadOut) (s : InMemoryKVStore) :
    Answer × InMemoryKVStore :=
  let ((status, out), s') := s.readKV db now key out
  (⟨.read status out, readEvents now key s⟩, s')

def readKVFromProxy (db : RocksDBKVStore) (now : ℕ) (key : KeyType) (out : ReadOut)
    (s : InMemoryKVStore) : Answer × InMemoryKVStore :=
  let (status, out) := s.readKVFromProxy db now key out
  (⟨.read status out, []⟩, s)

def deleteKV (key : KeyType) (deleteRecordVersion : ℕ) (s : InMemoryKVStore) :
    Answer × InMemoryKVStore :=
  (⟨.done .ok, []⟩, s.deleteKV key deleteRecordVersion)

def readMeta (db : RocksDBKVStore) (key : KeyType) (s : InMemoryKVStore) :
    Answer × InMemoryKVStore :=
  let (status, m) := s.readMeta db key
  (⟨.readMeta status m, if (s.mData key).isSome then onReadValue key else []⟩, s)

def readMetaFromProxy (db : RocksDBKVStore) (key : KeyType) (s : InMemoryKVStore) :
    Answer × InMemoryKVStore :=
  let (status, m) := s.readMetaFromProxy db key
  (⟨.readMeta status m, []⟩, s)

/-- The loop of `evictKV` reads each key before it decides. -/
def evictEvents (db : RocksDBKVStore) (now guardVersion : ℕ) :
    List KeyType → InMemoryKVStore → List KVObserveEvent
  | [], _ => []
  | key :: keys, s =>
    readEvents now key s ++ evictEvents db now guardVersion keys (s.evictKey db now key guardVersion)

def evictKV (db : RocksDBKVStore) (now : ℕ) (keys : List KeyType) (guardVersion : ℕ)
    (s : InMemoryKVStore) : Answer × InMemoryKVStore :=
  (⟨.done .ok, evictEvents db now guardVersion keys s ++ onEvictKeys keys⟩,
    s.evictKV db now keys guardVersion)

def clear (s : InMemoryKVStore) : InMemoryKVStore := s.clear

end ObservedKVStore

/-- The loop that hands each key to a part of the store; afterwards the store tells its own observers. -/
def evictEach {σ : Type*} (evict : KeyType → σ → Option (Answer × σ)) (keys : List KeyType) (s : σ) :
    Option (Answer × σ) :=
  (each (fun key s => (evict key s).map fun r => (r.1.submitted, r.2)) keys s).map fun r =>
    (⟨.done .ok, r.1 ++ CacheEvictionProxy.onEvictKeys keys⟩, r.2)

/-- `mSegments`, by index. -/
abbrev ConcurInMemoryKVStore := ℕ → Option InMemoryKVStore

namespace ConcurInMemoryKVStore

/-- The constructor. -/
def init : ConcurInMemoryKVStore := fun i => if i < kConcurLevel then some {} else none

section

variable (mHashFunc : KeyType → UInt64) (db : RocksDBKVStore) (now : ℕ)

/-- Every operation on a key goes to the segment of the key; an index that is out of range fails the assert. -/
def onSegment (key : KeyType) (f : InMemoryKVStore → Answer × InMemoryKVStore)
    (s : ConcurInMemoryKVStore) : Option (Answer × ConcurInMemoryKVStore) :=
  forward (calculateSegmentIndex mHashFunc key) (fun b => some (f b)) s

def writeKV (key : KeyType) (value : ValueType) (version updateTime : ℕ)
    (udfMeta : UserDefinedMeta) :=
  onSegment mHashFunc key (ObservedKVStore.writeKV key value version updateTime udfMeta)

def writeTTLKV (key : KeyType) (value : ValueType) (version ttl deadline updateTime : ℕ)
    (udfMeta : UserDefinedMeta) :=
  onSegment mHashFunc key
    (ObservedKVStore.writeTTLKV key value version ttl deadline updateTime udfMeta)

def readKV (key : KeyType) (out : ReadOut) :=
  onSegment mHashFunc key (ObservedKVStore.readKV db now key out)

def readKVFromProxy (key : KeyType) (out : ReadOut) :=
  onSegment mHashFunc key (ObservedKVStore.readKVFromProxy db now key out)

def deleteKV (key : KeyType) (deleteRecordVersion : ℕ) :=
  onSegment mHashFunc key (ObservedKVStore.deleteKV key deleteRecordVersion)

def readMeta (key : KeyType) := onSegment mHashFunc key (ObservedKVStore.readMeta db key)

def readMetaFromProxy (key : KeyType) :=
  onSegment mHashFunc key (ObservedKVStore.readMetaFromProxy db key)

def evictKV (keys : List KeyType) (guardVersion : ℕ) :
    ConcurInMemoryKVStore → Option (Answer × ConcurInMemoryKVStore) :=
  evictEach (fun key => onSegment mHashFunc key (ObservedKVStore.evictKV db now [key] guardVersion))
    keys

end

def clear (s : ConcurInMemoryKVStore) : ConcurInMemoryKVStore :=
  forwardAll InMemoryKVStore.clear s

end ConcurInMemoryKVStore

/-- `mWS2Wrapper`, by name. -/
abbrev WSConcurInMemoryKVStore := WSName → Option ConcurInMemoryKVStore

namespace WSConcurInMemoryKVStore

/-- One turn of the loop of the constructor: the names have to differ. -/
def insertWS (s : WSConcurInMemoryKVStore) (name : WSName) : Option WSConcurInMemoryKVStore :=
  if s name = none then some (Function.update s name (some .init)) else none

def init (initWSNames : List WSName) : Option WSConcurInMemoryKVStore :=
  initWSNames.foldlM insertWS fun _ => none

section

variable (mDefaultWSLookupFunc : KeyType → WSName) (mHashFunc : KeyType → UInt64)
  (db : RocksDBKVStore) (now : ℕ)

/-- Every operation on a key goes to the working set of the key; a name that is not there fails the assert. -/
def onWorkingSet (key : KeyType)
    (f : ConcurInMemoryKVStore → Option (Answer × ConcurInMemoryKVStore))
    (s : WSConcurInMemoryKVStore) : Option (Answer × WSConcurInMemoryKVStore) :=
  forward (mDefaultWSLookupFunc key) f s

def writeKV (key : KeyType) (value : ValueType) (version updateTime : ℕ)
    (udfMeta : UserDefinedMeta) :=
  onWorkingSet mDefaultWSLookupFunc key
    (ConcurInMemoryKVStore.writeKV mHashFunc key value version updateTime udfMeta)

def writeTTLKV (key : KeyType) (value : ValueType) (version ttl deadline updateTime : ℕ)
    (udfMeta : UserDefinedMeta) :=
  onWorkingSet mDefaultWSLookupFunc key
    (ConcurInMemoryKVStore.writeTTLKV mHashFunc key value version ttl deadline updateTime udfMeta)

def readKV (key : KeyType) (out : ReadOut) :=
  onWorkingSet mDefaultWSLookupFunc key (ConcurInMemoryKVStore.readKV mHashFunc db now key out)

def readKVFromProxy (key : KeyType) (out : ReadOut) :=
  onWorkingSet mDefaultWSLookupFunc key
    (ConcurInMemoryKVStore.readKVFromProxy mHashFunc db now key out)

def readMetaFromProxy (key : KeyType) :=
  onWorkingSet mDefaultWSLookupFunc key (ConcurInMemoryKVStore.readMetaFromProxy mHashFunc db key)

def deleteKV (key : KeyType) (deleteRecordVersion : ℕ) :=
  onWorkingSet mDefaultWSLookupFunc key
    (ConcurInMemoryKVStore.deleteKV mHashFunc key deleteRecordVersion)

def readMeta (key : KeyType) :=
  onWorkingSet mDefaultWSLookupFunc key (ConcurInMemoryKVStore.readMeta mHashFunc db key)

def evictKV (keys : List KeyType) (guardVersion : ℕ) :
    WSConcurInMemoryKVStore → Option (Answer × WSConcurInMemoryKVStore) :=
  evictEach (fun key => onWorkingSet mDefaultWSLookupFunc key
    (ConcurInMemoryKVStore.evictKV mHashFunc db now [key] guardVersion)) keys

end

def clear (s : WSConcurInMemoryKVStore) : WSConcurInMemoryKVStore :=
  forwardAll ConcurInMemoryKVStore.clear s

end WSConcurInMemoryKVStore

/-- A call of the store. -/
inductive Call
  | writeKV (key : KeyType) (value : ValueType) (version updateTime : ℕ) (udfMeta : UserDefinedMeta)
  | writeTTLKV (key : KeyType) (value : ValueType) (version ttl deadline updateTime : ℕ)
      (udfMeta : UserDefinedMeta)
  | readKV (key : KeyType) (out : ReadOut)
  | readKVFromProxy (key : KeyType) (out : ReadOut)
  | readMeta (key : KeyType)
  | readMetaFromProxy (key : KeyType)
  | deleteKV (key : KeyType) (deleteRecordVersion : ℕ)
  | evictKV (keys : List KeyType) (guardVersion : ℕ)
  | clear
  deriving DecidableEq, Repr

/-- A call that is made at a time and finds the delegate as it is at that time. -/
structure TimedCall where
  call : Call
  db : RocksDBKVStore
  now : ℕ

def InMemoryKVStore.serve (c : TimedCall) (s : InMemoryKVStore) : Option (Answer × InMemoryKVStore) :=
  match c.call with
  | .writeKV key value version updateTime udfMeta =>
    some (ObservedKVStore.writeKV key value version updateTime udfMeta s)
  | .writeTTLKV key value version ttl deadline updateTime udfMeta =>
    some (ObservedKVStore.writeTTLKV key value version ttl deadline updateTime udfMeta s)
  | .readKV key out => some (ObservedKVStore.readKV c.db c.now key out s)
  | .readKVFromProxy key out => some (ObservedKVStore.readKVFromProxy c.db c.now key out s)
  | .readMeta key => some (ObservedKVStore.readMeta c.db key s)
  | .readMetaFromProxy key => some (ObservedKVStore.readMetaFromProxy c.db key s)
  | .deleteKV key deleteRecordVersion => some (ObservedKVStore.deleteKV key deleteRecordVersion s)
  | .evictKV keys guardVersion => some (ObservedKVStore.evictKV c.db c.now keys guardVersion s)
  | .clear => some (⟨.done .ok, []⟩, s.clear)

section Runs

variable (mDefaultWSLookupFunc : KeyType → WSName) (mHashFunc : KeyType → UInt64)

def WSConcurInMemoryKVStore.serve (c : TimedCall) (s : WSConcurInMemoryKVStore) :
    Option (Answer × WSConcurInMemoryKVStore) :=
  match c.call with
  | .writeKV key value version updateTime udfMeta =>
    writeKV mDefaultWSLookupFunc mHashFunc key value version updateTime udfMeta s
  | .writeTTLKV key value version ttl deadline updateTime udfMeta =>
    writeTTLKV mDefaultWSLookupFunc mHashFunc key value version ttl deadline updateTime udfMeta s
  | .readKV key out => readKV mDefaultWSLookupFunc mHashFunc c.db c.now key out s
  | .readKVFromProxy key out => readKVFromProxy mDefaultWSLookupFunc mHashFunc c.db c.now key out s
  | .readMeta key => readMeta mDefaultWSLookupFunc mHashFunc c.db key s
  | .readMetaFromProxy key => readMetaFromProxy mDefaultWSLookupFunc mHashFunc c.db key s
  | .deleteKV key deleteRecordVersion =>
    deleteKV mDefaultWSLookupFunc mHashFunc key deleteRecordVersion s
  | .evictKV keys guardVersion =>
    evictKV mDefaultWSLookupFunc mHashFunc c.db c.now keys guardVersion s
  | .clear => some (⟨.done .ok, []⟩, s.clear)

/-- The answers to a sequence of calls, and the store they leave. -/
def InMemoryKVStore.serveAll (calls : List TimedCall) (s : InMemoryKVStore) :
    Option (List Answer × InMemoryKVStore) :=
  each (fun c s => (serve c s).map fun r => ([r.1], r.2)) calls s

def WSConcurInMemoryKVStore.serveAll (calls : List TimedCall) (s : WSConcurInMemoryKVStore) :
    Option (List Answer × WSConcurInMemoryKVStore) :=
  each (fun c s => (serve mDefaultWSLookupFunc mHashFunc c s).map fun r => ([r.1], r.2)) calls s

end Runs

/-- All that an `InMemoryKVStore` holds for a key. -/
structure Slot where
  data : Option Cell := none
  udfMeta : Option UserDefinedMeta := none
  deleted : Option ℕ := none
  deriving DecidableEq, Repr, Inhabited

namespace InMemoryKVStore

def slot (s : InMemoryKVStore) (key : KeyType) : Slot :=
  ⟨s.mData key, s.mUdfMetaMap key, s.mDeletedData key⟩

def view : View InMemoryKVStore KeyType Slot := ⟨fun _ => True, slot⟩

variable {s t : InMemoryKVStore} {key k : KeyType}

theorem slot_eq_iff : s.slot key = t.slot key ↔ s.mData key = t.mData key ∧
    s.mUdfMetaMap key = t.mUdfMetaMap key ∧ s.mDeletedData key = t.mDeletedData key := by
  simp [slot]

theorem slot_eraseData (h : k ≠ key) : (s.eraseData key).slot k = s.slot k := by
  simp [slot, eraseData, h]

theorem slot_erase (h : k ≠ key) : (s.erase key).slot k = s.slot k := by
  simp [slot, erase, h]

end InMemoryKVStore

/-- The operation looks at one slot only, and changes no other. -/
structure Local (key : KeyType) (f : InMemoryKVStore → Answer × InMemoryKVStore) : Prop where
  congr : ∀ s t, s.slot key = t.slot key →
    (f s).1 = (f t).1 ∧ (f s).2.slot key = (f t).2.slot key
  frame : ∀ s, ∀ k ≠ key, (f s).2.slot k = s.slot k

namespace ObservedKVStore

variable {key : KeyType}

theorem local_writeTTLKV (value : ValueType) (version ttl deadline updateTime : ℕ)
    (udfMeta : UserDefinedMeta) :
    Local key (writeTTLKV key value version ttl deadline updateTime udfMeta) where
  congr s t h := by
    obtain ⟨-, hudf, -⟩ := InMemoryKVStore.slot_eq_iff.mp h
    refine ⟨rfl, ?_⟩
    by_cases hm : udfMeta.nonempty <;>
      simp [writeTTLKV, InMemoryKVStore.writeTTLKV, InMemoryKVStore.slot, hm, hudf]
  frame s k hk := by
    by_cases hm : udfMeta.nonempty <;>
      simp [writeTTLKV, InMemoryKVStore.writeTTLKV, InMemoryKVStore.slot, hm, hk]

theorem local_deleteKV (deleteRecordVersion : ℕ) : Local key (deleteKV key deleteRecordVersion) where
  congr s t h := by
    obtain ⟨hdata, -, hdel⟩ := InMemoryKVStore.slot_eq_iff.mp h
    refine ⟨rfl, ?_⟩
    unfold deleteKV InMemoryKVStore.deleteKV
    rw [hdata]
    cases t.mData key with
    | none => exact h
    | some c => simp [InMemoryKVStore.slot, hdel]
  frame s k hk := by
    unfold deleteKV InMemoryKVStore.deleteKV
    cases s.mData key with
    | none => rfl
    | some c => simp [InMemoryKVStore.slot, hk]

variable (db : RocksDBKVStore) (now : ℕ)

theorem local_readKV (out : ReadOut) : Local key (readKV db now key out) where
  congr s t h := by
    obtain ⟨hdata, hudf, hdel⟩ := InMemoryKVStore.slot_eq_iff.mp h
    unfold readKV readEvents InMemoryKVStore.readKV
    rw [hdata, hdel]
    cases t.mData key with
    | none =>
      cases t.mDeletedData key with
      | none => exact ⟨rfl, h⟩
      | some v => exact ⟨rfl, h⟩
    | some c =>
      by_cases ht : isTimeOut now c.deadline c.ttl
      · simp [ht, InMemoryKVStore.slot, InMemoryKVStore.eraseData, hudf, hdel]
      · simpa [ht] using h
  frame s k hk := by
    unfold readKV InMemoryKVStore.readKV
    cases s.mData key with
    | none =>
      cases s.mDeletedData key with
      | none => rfl
      | some v => rfl
    | some c =>
      by_cases ht : isTimeOut now c.deadline c.ttl
      · simpa [ht] using InMemoryKVStore.slot_eraseData hk
      · simp [ht]

theorem local_readKVFromProxy (out : ReadOut) : Local key (readKVFromProxy db now key out) where
  congr _ _ h := ⟨rfl, h⟩
  frame _ _ _ := rfl

theorem local_readMetaFromProxy : Local key (readMetaFromProxy db key) where
  congr _ _ h := ⟨rfl, h⟩
  frame _ _ _ := rfl

theorem local_readMeta : Local key (readMeta db key) where
  congr s t h := by
    obtain ⟨hdata, hudf, -⟩ := InMemoryKVStore.slot_eq_iff.mp h
    unfold readMeta InMemoryKVStore.readMeta
    rw [hdata, hudf]
    exact ⟨rfl, h⟩
  frame _ _ _ := rfl

/-- The state that the eviction of a key leaves is decided by the read that comes first. -/
theorem evictKey_eq (guardVersion : ℕ) (s : InMemoryKVStore) :
    s.evictKey db now key guardVersion =
      if (s.readKV db now key {}).1.1.isOK ∧ ¬ (s.readKV db now key {}).1.2.version > guardVersion then
        (s.readKV db now key {}).2.erase key
      else (s.readKV db now key {}).2 := by
  unfold InMemoryKVStore.evictKey
  by_cases hok : (s.readKV db now key {}).1.1.isOK <;>
    by_cases hv : (s.readKV db now key {}).1.2.version > guardVersion <;> simp [hok, hv]

theorem local_evictKV (guardVersion : ℕ) : Local key (evictKV db now [key] guardVersion) where
  congr s t h := by
    obtain ⟨hanswer, hslot⟩ := (local_readKV db now {}).congr s t h
    have hread : (s.readKV db now key {}).1 = (t.readKV db now key {}).1 := by
      have := congrArg Answer.reply hanswer
      simp only [readKV, Reply.read.injEq] at this
      exact Prod.ext this.1 this.2
    refine ⟨?_, ?_⟩
    · have hevents : readEvents now key s = readEvents now key t := congrArg Answer.submitted hanswer
      simp [evictKV, evictEvents, hevents]
    · show (s.evictKey db now key guardVersion).slot key = (t.evictKey db now key guardVersion).slot key
      rw [evictKey_eq, evictKey_eq, hread]
      split_ifs
      · simp [InMemoryKVStore.slot, InMemoryKVStore.erase]
      · exact hslot
  frame s k hk := by
    have hread : (s.readKV db now key {}).2.slot k = s.slot k := (local_readKV db now {}).frame s k hk
    show (s.evictKey db now key guardVersion).slot k = s.slot k
    rw [evictKey_eq]
    split_ifs
    · rw [InMemoryKVStore.slot_erase hk, hread]
    · exact hread

theorem evictKV_eq_each (keys : List KeyType) (guardVersion : ℕ) (s : InMemoryKVStore) :
    some (evictKV db now keys guardVersion s) =
      evictEach (fun key s => some (evictKV db now [key] guardVersion s)) keys s := by
  have heach : each (fun key s => (some (evictKV db now [key] guardVersion s)).map
      fun r => (r.1.submitted, r.2)) keys s =
      some (evictEvents db now guardVersion keys s, s.evictKV db now keys guardVersion) := by
    induction keys generalizing s with
    | nil => rfl
    | cons key keys ih =>
      unfold each
      rw [map_some, bind_some, ih]
      simp [evictKV, evictEvents, InMemoryKVStore.evictKV, CacheEvictionProxy.onEvictKeys]
  rw [evictEach, heach]
  rfl

end ObservedKVStore

theorem Local.mirrors {key : KeyType} {f : InMemoryKVStore → Answer × InMemoryKVStore} (h : Local key f) :
    Mirrors InMemoryKVStore.view InMemoryKVStore.view key (fun s => some (f s)) fun s => some (f s) := by
  intro s t _ _ hslot
  obtain ⟨hanswer, hslot'⟩ := h.congr s t hslot
  exact ⟨(f s).1, (f s).2, (f t).2, rfl, by rw [hanswer], hslot', ⟨trivial, h.frame s⟩,
    trivial, h.frame t⟩

/-! Each operation of the segmented store against the same operation of one `InMemoryKVStore`. -/
section Simulation

variable (mDefaultWSLookupFunc : KeyType → WSName) (mHashFunc : KeyType → UInt64)

def ConcurInMemoryKVStore.view : View ConcurInMemoryKVStore KeyType Slot :=
  shardView (calculateSegmentIndex mHashFunc) InMemoryKVStore.view

def WSConcurInMemoryKVStore.view : View WSConcurInMemoryKVStore KeyType Slot :=
  shardView mDefaultWSLookupFunc (ConcurInMemoryKVStore.view mHashFunc)

variable {mDefaultWSLookupFunc mHashFunc} {key : KeyType}
  {f : InMemoryKVStore → Answer × InMemoryKVStore}

theorem Local.mirrors_onSegment (h : Local key f) :
    Mirrors (ConcurInMemoryKVStore.view mHashFunc) InMemoryKVStore.view key
      (ConcurInMemoryKVStore.onSegment mHashFunc key f) fun s => some (f s) :=
  h.mirrors.forward

theorem Local.simulates (h : Local key f) :
    Simulates (WSConcurInMemoryKVStore.view mDefaultWSLookupFunc mHashFunc) InMemoryKVStore.view
      (WSConcurInMemoryKVStore.onWorkingSet mDefaultWSLookupFunc key
        (ConcurInMemoryKVStore.onSegment mHashFunc key f)) fun s => some (f s) :=
  h.mirrors_onSegment.forward.simulates

theorem evictEach_singleton {σ : Type*} {evict : KeyType → σ → Option (Answer × σ)} {s : σ}
    (h : ∀ r ∈ evict key s, r.1.reply = .done .ok) : evictEach evict [key] s = evict key s := by
  cases hr : evict key s with
  | none => simp [evictEach, each, hr]
  | some r =>
    have hdone : r.1.reply = .done .ok := h r hr
    simp [evictEach, each, hr, CacheEvictionProxy.onEvictKeys, ← hdone]

theorem simulates_evictEach {σ τ : Type*} {v : View σ KeyType Slot} {w : View τ KeyType Slot}
    {f : KeyType → σ → Option (Answer × σ)} {g : KeyType → τ → Option (Answer × τ)}
    (h : ∀ key, Simulates v w (f key) (g key)) (keys : List KeyType) :
    Simulates v w (evictEach f keys) (evictEach g keys) := by
  have hloop := Simulates.each (fun key => (h key).map Answer.submitted) keys
  exact hloop.map fun events => Answer.mk (.done .ok) (events ++ CacheEvictionProxy.onEvictKeys keys)

theorem ConcurInMemoryKVStore.evictKV_singleton (db : RocksDBKVStore) (now guardVersion : ℕ)
    (s : ConcurInMemoryKVStore) :
    evictKV mHashFunc db now [key] guardVersion s =
      onSegment mHashFunc key (ObservedKVStore.evictKV db now [key] guardVersion) s := by
  refine evictEach_singleton fun r hr => ?_
  cases hs : s (calculateSegmentIndex mHashFunc key) with
  | none => simp [onSegment, forward, hs] at hr
  | some b =>
    simp only [onSegment, forward, hs, bind_some, map_some, mem_some_iff] at hr
    rw [← hr]
    rfl

theorem WSConcurInMemoryKVStore.simulates_evictKV (db : RocksDBKVStore) (now : ℕ) (keys : List KeyType)
    (guardVersion : ℕ) :
    Simulates (view mDefaultWSLookupFunc mHashFunc) InMemoryKVStore.view
      (evictKV mDefaultWSLookupFunc mHashFunc db now keys guardVersion)
      fun s => some (ObservedKVStore.evictKV db now keys guardVersion s) := by
  rw [show (fun s => some (ObservedKVStore.evictKV db now keys guardVersion s)) = _ from
    funext (ObservedKVStore.evictKV_eq_each db now keys guardVersion)]
  refine simulates_evictEach (fun key => ?_) keys
  rw [show ConcurInMemoryKVStore.evictKV mHashFunc db now [key] guardVersion = _ from
    funext (ConcurInMemoryKVStore.evictKV_singleton db now guardVersion)]
  exact (ObservedKVStore.local_evictKV db now guardVersion).simulates

theorem InMemoryKVStore.wipes_clear : Wipes view clear :=
  fun _ _ => ⟨trivial, fun _ => rfl⟩

theorem WSConcurInMemoryKVStore.wipes_clear : Wipes (view mDefaultWSLookupFunc mHashFunc) clear :=
  InMemoryKVStore.wipes_clear.forwardAll.forwardAll

theorem WSConcurInMemoryKVStore.simulates_serve (c : TimedCall) :
    Simulates (view mDefaultWSLookupFunc mHashFunc) InMemoryKVStore.view
      (serve mDefaultWSLookupFunc mHashFunc c) (InMemoryKVStore.serve c) := by
  obtain ⟨call, db, now⟩ := c
  cases call with
  | writeKV key value version updateTime udfMeta =>
    exact (ObservedKVStore.local_writeTTLKV value version _ _ updateTime udfMeta).simulates
  | writeTTLKV key value version ttl deadline updateTime udfMeta =>
    exact (ObservedKVStore.local_writeTTLKV value version ttl deadline updateTime udfMeta).simulates
  | readKV key out => exact (ObservedKVStore.local_readKV db now out).simulates
  | readKVFromProxy key out => exact (ObservedKVStore.local_readKVFromProxy db now out).simulates
  | readMeta key => exact (ObservedKVStore.local_readMeta db).simulates
  | readMetaFromProxy key => exact (ObservedKVStore.local_readMetaFromProxy db).simulates
  | deleteKV key deleteRecordVersion =>
    exact (ObservedKVStore.local_deleteKV deleteRecordVersion).simulates
  | evictKV keys guardVersion => exact simulates_evictKV db now keys guardVersion
  | clear => exact wipes_clear.simulates InMemoryKVStore.wipes_clear _

theorem WSConcurInMemoryKVStore.simulates_serveAll (calls : List TimedCall) :
    Simulates (view mDefaultWSLookupFunc mHashFunc) InMemoryKVStore.view
      (serveAll mDefaultWSLookupFunc mHashFunc calls) (InMemoryKVStore.serveAll calls) :=
  Simulates.each (fun c => (simulates_serve c).map fun a => [a]) calls

end Simulation

namespace WSConcurInMemoryKVStore

/-- Empty working sets under these names, and no others. -/
def fresh (names : List WSName) : WSConcurInMemoryKVStore :=
  fun name => if name ∈ names then some .init else none

theorem init_of_nodup {names : List WSName} (h : names.Nodup) : init names = some (fresh names) := by
  have hloop : ∀ (rest : List WSName) (s : WSConcurInMemoryKVStore), rest.Nodup →
      (∀ name ∈ rest, s name = none) → rest.foldlM insertWS s =
        some fun name => if name ∈ rest then some .init else s name := by
    intro rest
    induction rest with
    | nil => intros; simp
    | cons n rest ih =>
      intro s hnodup hs
      obtain ⟨hn, hrest⟩ := List.nodup_cons.mp hnodup
      have hnew : insertWS s n = some (Function.update s n (some .init)) :=
        if_pos (hs n List.mem_cons_self)
      rw [List.foldlM_cons, hnew, bind_eq_bind, bind_some, ih _ hrest]
      · congr 1
        funext name
        by_cases hname : name = n
        · simp [hname, hn]
        · simp [hname]
      · intro name hname
        have hne : name ≠ n := fun he => hn (he ▸ hname)
        rw [Function.update_of_ne hne]
        exact hs name (List.mem_cons_of_mem _ hname)
  rw [init, hloop names _ h fun _ _ => rfl]
  rfl

end WSConcurInMemoryKVStore

theorem ConcurInMemoryKVStore.init_segment (mHashFunc : KeyType → UInt64) (key : KeyType) :
    init (calculateSegmentIndex mHashFunc key) = some {} :=
  if_pos (calculateSegmentIndex_lt key)

/-- A new store whose lookup names its own working sets is an empty store. -/
theorem WSConcurInMemoryKVStore.alike_fresh {names : List WSName}
    {mDefaultWSLookupFunc : KeyType → WSName} (mHashFunc : KeyType → UInt64)
    (h : ∀ key, mDefaultWSLookupFunc key ∈ names) :
    Alike (view mDefaultWSLookupFunc mHashFunc) InMemoryKVStore.view (fresh names) {} := by
  have hws (key : KeyType) : fresh names (mDefaultWSLookupFunc key) = some .init := if_pos (h key)
  refine ⟨fun key => ⟨.init, hws key, fun k => ?_⟩, trivial, fun key => ?_⟩
  · exact ⟨{}, ConcurInMemoryKVStore.init_segment mHashFunc k, trivial⟩
  · rw [view, line_shardView (hws key), ConcurInMemoryKVStore.view,
      line_shardView (ConcurInMemoryKVStore.init_segment mHashFunc key)]

end Goblin.Store
