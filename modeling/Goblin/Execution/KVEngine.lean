import Goblin.Execution.Processor
import Goblin.Model.Bundle

/-! A request on its whole way, with every assertion that it may meet: the store in which records are bytes, the
bundle that is handed to the log, and the reply. -/
namespace Goblin.Store

open Model Lib Lib.Wire

/-- The key is looked for in RocksDB. -/
def InMemoryKVStore.Misses (mem : InMemoryKVStore) (key : KeyType) : Prop :=
  mem.mData key = none ∧ mem.mDeletedData key = none

instance (mem : InMemoryKVStore) (key : KeyType) : Decidable (mem.Misses key) :=
  inferInstanceAs (Decidable (_ ∧ _))

end Goblin.Store

namespace Goblin.Execution

open Model Store Lib Lib.Wire

/-- The stores while a command executes on them, and whether it has met a record that it cannot read. -/
structure RawStores where
  stores : Stores
  aborted : Bool := false

namespace RawStores

def answer (s : RawStores) : (o : StoreOp) → o.Res × RawStores
  | .readKV key out =>
    if s.stores.mem.Misses key then
      match s.stores.db.readRaw s.stores.now key out with
      | some r => (r, s)
      | none => ((.error "", out), { s with aborted := true })
    else ((s.stores.answer (.readKV key out)).1, { s with stores := (s.stores.answer (.readKV key out)).2 })
  | .readKVFromProxy key out =>
    match s.stores.db.readRaw s.stores.now key out with
    | some r => (r, s)
    | none => ((.error "", out), { s with aborted := true })
  | .readMeta key => (s.stores.mem.readMeta s.stores.db key, s)
  | .readMetaFromProxy key => (s.stores.db.readMeta key, s)
  | .secondsSinceEpoch => (s.stores.now, s)

end RawStores

def runRaw {α : Type} (p : StoreProg α) (s : Stores) : Option (α × Stores) :=
  (p.run RawStores.answer { stores := s }).bind fun (a, t) => if t.aborted then none else some (a, t.stores)

/-- `StrUtil::tokenize` -/
def tokenize (str : String) (delim : Char) : List String :=
  ((str.toList.splitOn delim).filter (· ≠ [])).map fun part => String.ofList (part.filter (· ≠ '\n'))

/-- The part of `fillResponseAndReply` that asserts. -/
def fillResponseAndReply (c : Command) (r : Response) (code : ResponseCode) (message : String) : Option Response :=
  if c.routeHintCode = some code ∧ tokenize message ',' = [] then none else some (r.fillResponse code message)

section Persist

/-- A block of bytes that is left out when it is empty. -/
def block (number : ℕ) (bs : Bytes) : List Field := if bs = [] then [] else [.bytes number bs]

def udfFields (number : ℕ) (udfMeta : Option UserDefinedMeta) : List Field :=
  match udfMeta with
  | none => []
  | some m => [.bytes number (Goblin.Proto.UserDefinedMeta.message.encode (udfProto m))]

def writeEventFields (e : Model.Proto.WriteEvent) : List Field :=
  block 1 (bytesOf e.key) ++ block 2 (bytesOf e.value) ++ optional 3 (e.version % 2 ^ 64) ++
    optional 4 e.enableTTL.toNat ++ optional 5 (e.ttl % 2 ^ 32) ++ optional 6 (e.deadline % 2 ^ 32) ++
    optional 7 (e.updateTime % 2 ^ 32) ++ optional 8 e.isnoop.toNat ++ udfFields 9 e.udfMeta

def deleteEventFields (e : Model.Proto.DeleteEvent) : List Field :=
  block 1 (bytesOf e.key) ++ block 2 (bytesOf e.deletedValue) ++ optional 3 (e.deletedVersion % 2 ^ 64) ++
    optional 4 (e.version % 2 ^ 64)

def eventFields : Model.Proto.Event → List Field
  | .writeEvent e => [.bytes 1 (field.writeAll (writeEventFields e))]
  | .deleteEvent e => [.bytes 2 (field.writeAll (deleteEventFields e))]
  | .appendEvent => [.bytes 3 []]
  | .notSet => []

def serializeBundle (bundle : List Model.Proto.Event) : Bytes :=
  field.writeAll (bundle.map fun e => .bytes 1 (field.writeAll (eventFields e)))

def kMaxPayLoadSizeInBytes : ℕ := 5000000

/-- `persistAsync` and `dequeue`; `header` is what the log entry takes besides its payload. -/
def persist (header : ℕ) (events : List Event) : Option (List Model.Proto.Event) :=
  if events = [] then none
  else
    (Event.toBundle events).bind fun bundle =>
      if header + (serializeBundle bundle).length ≤ kMaxPayLoadSizeInBytes then some bundle else none

end Persist

/-- `behind` are the bundles in the log that RocksDB does not hold yet, `last` is the newest bundle. -/
structure KVEngine where
  stores : Stores := {}
  versions : VersionStore := {}
  behind : List (List Model.Proto.Event) := []
  last : Option (List Model.Proto.Event) := none

namespace KVEngine

inductive Request
  | put (e : WriteEntry)
  | get (req : GetRequest)
  | remove (req : DeleteRequest)
  | trans (req : TransRequest)

def Request.command : Request → Command
  | .put e => KVPutCommand e
  | .get req => KVGetCommand req
  | .remove req => KVDeleteCommand req
  | .trans req => KVTransCommand req

/-- Requests with what the callback before their execution returns, the apply loop, the eviction of keys, a
takeover, a restart and the clock. -/
inductive Act
  | request (req : Request) (preExecute : Status)
  | exeBatch (entries : List (Entry × Status))
  | apply (n : ℕ)
  | evict (keys : List KeyType) (guardVersion : ℕ)
  | lead
  | restart
  | tick (now : ℕ)

/-- `doExecute` and `doFollowerReadExecute` up to `finish`; a stale read does not ask the callback. -/
def execute (h : KVEngine) (c : Command) (preExecute : Status) : Option (ExecResult × Stores) :=
  if c.isFollowerReadCmd ∨ preExecute.isOK then runRaw c.execute h.stores
  else some ({ status := preExecute }, h.stores)

def dispatched (h : KVEngine) (c : Command) (r : ExecResult) : Option Dispatched :=
  if c.isFollowerReadCmd then dispatchFollowerRead c h.versions r else dispatch c h.versions r

def conclude (header : ℕ) (h : KVEngine) (c : Command) (r : ExecResult) : Option Outcome → Option KVEngine
  | some (.persistAsync _ _ events) =>
    (persist header events).map fun bundle => { h with behind := h.behind ++ [bundle], last := some bundle }
  | some _ => some h
  | none => do
    let response ← c.initSuccessResponse h.versions.getCurMaxVersion r.ignoredPutKeys []
    let _ ← fillResponseAndReply c response (toResponseCode r.status) r.status.detail
    return h

def serve (header : ℕ) (h : KVEngine) (c : Command) (preExecute : Status) : Option KVEngine := do
  let _ ← c.getTargetKeys
  let (r, stores) ← h.execute c preExecute
  let d ← h.dispatched c r
  conclude header { h with stores := c.finish stores d.events, versions := d.versions } c r d.outcome

/-- `exeBatchAsync` turns the entries into commands of their own, up to the first one that is not set. -/
def exeBatch (header : ℕ) (h : KVEngine) : List (Entry × Status) → Option KVEngine
  | [] => some h
  | (.write e, preExecute) :: rest =>
    (serve header h (Request.put e).command preExecute).bind fun h => exeBatch header h rest
  | (.read e, preExecute) :: rest =>
    (serve header h (Request.get { entry := e }).command preExecute).bind fun h => exeBatch header h rest
  | (.remove e, preExecute) :: rest =>
    (serve header h (Request.remove { entry := e }).command preExecute).bind fun h => exeBatch header h rest
  | (.unset, _) :: _ => some h

/-- The apply loop takes bundles from the log, applies their events and commits. -/
def apply (h : KVEngine) (n : ℕ) : Option KVEngine := do
  let events ← (h.behind.take n).mapM Event.fromBundle
  return { h with
    stores := { h.stores with db := (Event.applyAll h.stores.db events.flatten).flushToRocksDB }
    behind := h.behind.drop n }

/-- An eviction reads every key before it drops it. -/
def evict (h : KVEngine) (keys : List KeyType) (guardVersion : ℕ) : Option KVEngine :=
  if ∀ key ∈ keys, h.stores.mem.Misses key → (h.stores.db.readRaw h.stores.now key {}).isSome then
    some { h with stores :=
      { h.stores with mem := h.stores.mem.evictKV h.stores.db h.stores.now keys guardVersion } }
  else none

/-- The versions go on behind the last bundle, and the cache is cleared. -/
def lead (h : KVEngine) : Option KVEngine := do
  let version ←
    match h.last with
    | none => some kInvalidVersion
    | some bundle => Model.Proto.getVersionFromBundle bundle
  return { h with
    stores := { h.stores with mem := h.stores.mem.clear }
    versions := h.versions.recoverMaxVersion version }

/-- There is no next state only where an assertion fails. -/
def step (header : ℕ) (h : KVEngine) : Act → Option KVEngine
  | .request req preExecute => serve header h req.command preExecute
  | .exeBatch entries => exeBatch header h entries
  | .apply n => h.apply n
  | .evict keys guardVersion => h.evict keys guardVersion
  | .lead => h.lead
  | .restart => some { h with stores := { h.stores with mem := {} }, versions := {} }
  | .tick now => some { h with stores := { h.stores with now := max now h.stores.now } }

end KVEngine

end Goblin.Execution
