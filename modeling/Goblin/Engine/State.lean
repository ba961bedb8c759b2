import Goblin.Execution.Processor
import Goblin.Engine.Raft

/-! One node: the Raft library, the event store and its persist loop, the apply loop, the reply loop
and the threads of the processor, each taking steps of its own. -/
namespace Goblin.Engine

open Model Store Execution

/-- What clients and the cache eviction submit. -/
inductive Request
  | put (entry : WriteEntry)
  | get (req : GetRequest)
  | delete (req : DeleteRequest)
  | trans (req : TransRequest)
  | generate (req : GenerateRequest)
  | evict (keys : List KeyType) (version : ℕ)
  | connect

def Request.command : Request → Command
  | .put entry => KVPutCommand entry
  | .get req => KVGetCommand req
  | .delete req => KVDeleteCommand req
  | .trans req => KVTransCommand req
  | .generate req => KVGenerateCommand req
  | .evict keys version => KVEvictCommand keys version
  | .connect => ConnectCommand

/-- `EventWithTermWithContext`: the request and its prepared response stand for the context. -/
structure PersistEntry where
  events : List Event
  version : ℕ
  expectedTerm : ℕ
  request : Request
  response : Response

/-- How far a call of `dequeue` has come: it has taken an item, or it has sent the request and not reached its
compare-and-swap yet. -/
inductive Dequeue
  | popped (e : PersistEntry)
  | sent (previousLogIndex : ℕ)

structure RaftEventStore where
  mLogStoreTerm : ℕ := 0
  mLogStoreRole : RaftRole := .Follower
  mCachedBundles : List (List Event × ℕ) := []
  mAppliedIndex : ℕ := 0
  mLoadedIndex : ℕ := 0
  mPersistQueue : List PersistEntry := []
  mBatchReqs : List ClientRequest := []
  mLastSentLogIndex : ℕ := 0
  dequeuing : Option Dequeue := none

/-- The item that a call of `dequeue` has taken and not sent yet. -/
def RaftEventStore.popped (store : RaftEventStore) : List PersistEntry :=
  match store.dequeuing with
  | some (.popped e) => [e]
  | _ => []

/-- What is still to be sent, oldest first. -/
def RaftEventStore.waiting (store : RaftEventStore) : List PersistEntry := store.popped ++ store.mPersistQueue

section Waiting

variable {store : RaftEventStore} {e : PersistEntry} {rest : List PersistEntry}

theorem RaftEventStore.waiting_of_idle (h : store.dequeuing = none) : store.waiting = store.mPersistQueue := by
  simp [waiting, popped, h]

theorem RaftEventStore.waiting_of_popped (h : store.dequeuing = some (.popped e)) :
    store.waiting = e :: store.mPersistQueue := by
  simp [waiting, popped, h]

theorem RaftEventStore.waiting_of_sent {previousLogIndex : ℕ} (h : store.dequeuing = some (.sent previousLogIndex)) :
    store.waiting = store.mPersistQueue := by
  simp [waiting, popped, h]

theorem RaftEventStore.waiting_dequeue (hqueue : store.mPersistQueue = e :: rest) (hidle : store.dequeuing = none) :
    RaftEventStore.waiting { store with mPersistQueue := rest, dequeuing := some (.popped e) } = store.waiting := by
  rw [waiting_of_idle hidle, hqueue]
  rfl

theorem RaftEventStore.waiting_append (queue : List PersistEntry) :
    RaftEventStore.waiting { store with mPersistQueue := store.mPersistQueue ++ queue } = store.waiting ++ queue :=
  (List.append_assoc ..).symm

theorem RaftEventStore.forall_waiting_append {P : PersistEntry → Prop} (h : ∀ e' ∈ store.waiting, P e') (he : P e) :
    ∀ e' ∈ RaftEventStore.waiting { store with mPersistQueue := store.mPersistQueue ++ [e] }, P e' := by
  rw [waiting_append]
  exact List.forall_mem_append.mpr ⟨h, List.forall_mem_singleton.mpr he⟩

end Waiting

/-- `applying` is the bundle that was popped and is not applied yet. -/
structure EventApplyLoop where
  appliedIndex : ℕ := 0
  appliedBundle : List Event := []
  applying : Option (List Event × ℕ) := none
  mLastMilestone : ℕ := 0
  mLastMilestoneKeyVersion : ℕ := 0

/-- A task of the reply loop; index 0 is a read. `events` is the bundle of the command, which the code
does not keep here. -/
structure Task where
  mIndex : ℕ
  mTerm : ℕ
  mVersion : ℕ
  followerReadTask : Bool := false
  request : Request
  response : Response
  events : List Event := []

/-- What a client was told. -/
structure Reply where
  request : Request
  response : Response

/-- Where a call of `process` is before it runs its command. -/
inductive Gate
  | enters
  | read (curRole : RaftRole) (curTerm : ℕ)
  | waits (curTerm : ℕ)
  | passes
  deriving DecidableEq, Repr

structure Thread where
  request : Request
  gate : Gate

/-- How far the thread that holds `mBecomeLeaderMutex` has come. -/
inductive TakeoverStage
  | waiting
  | ready (lastLogIndex maxVersion : ℕ)
  | recovering (lastLogIndex maxVersion : ℕ)
  | recovered (lastLogIndex : ℕ)
  | cleared (lastLogIndex : ℕ)
  | termSet (lastLogIndex : ℕ)
  deriving DecidableEq, Repr

structure Takeover where
  request : Request
  curTerm : ℕ
  stage : TakeoverStage

/-- A command between `prepare` and `finish`. -/
inductive Stage
  | executing (p : StoreProg ExecResult)
  | finishing (r : ExecResult) (d : Dispatched)

structure Running where
  request : Request
  stage : Stage

/-- How far a call of `updateCurMaxVersion` has come: before its first look at `mMaxVersion`, before the mutex, or with
the value that it has loaded under the mutex. -/
inductive Update
  | enters (newVersion : ℕ)
  | waits (newVersion : ℕ)
  | loaded (newVersion mMaxVersion : ℕ)
  deriving DecidableEq, Repr

/-- `toUpdate` holds the calls of `updateCurMaxVersion` for replied tasks, and `replies` all that was ever sent. -/
structure Node where
  raft : Raft := {}
  store : RaftEventStore := {}
  loop : EventApplyLoop := {}
  stores : Stores := {}
  versions : VersionStore := {}
  mCurTerm : ℕ := 0
  threads : List Thread := []
  takeover : Option Takeover := none
  running : List Running := []
  tasks : List Task := []
  toUpdate : List Update := []
  replies : List Reply := []

namespace Node

section Apply

/-- `loadNextBundle` when nothing is cached; Raft may return fewer entries than it is asked for. -/
def loadBundles (s : Node) (size : ℕ) : Option Node :=
  if s.store.mCachedBundles.isEmpty ∧ s.loop.applying = none ∧ 0 < size ∧
      s.store.mLoadedIndex + size ≤ s.raft.commitIndex then
    some { s with store := { s.store with
      mLoadedIndex := s.store.mLoadedIndex + size
      mCachedBundles := s.raft.loadBundles (s.store.mLoadedIndex + 1) size } }
  else none

/-- `mAppliedIndex` advances when the bundle is handed out, before its events are applied. -/
def loadNextBundle (s : Node) : Option Node :=
  match s.store.mCachedBundles, s.loop.applying with
  | (bundle, index) :: rest, none => some
    { s with
      store := { s.store with
        mCachedBundles := rest
        mAppliedIndex := max s.store.mAppliedIndex index }
      loop := { s.loop with applying := some (bundle, index) } }
  | _, _ => none

def applyBundle (s : Node) : Option Node :=
  match s.loop.applying with
  | some (bundle, index) => some
    { s with
      stores := { s.stores with db := Event.applyAll s.stores.db bundle }
      loop := { s.loop with appliedIndex := index, appliedBundle := bundle, applying := none } }
  | none => none

def commitMilestone (s : Node) : Option Node :=
  if s.loop.applying = none ∧ s.loop.mLastMilestone < s.loop.appliedIndex then
    some { s with
      stores := { s.stores with db := s.stores.db.commit s.loop.appliedIndex }
      loop := { s.loop with
        mLastMilestone := s.loop.appliedIndex
        mLastMilestoneKeyVersion := getVersionFromBundle s.loop.appliedBundle } }
  else none

end Apply

section Persist

def refreshRoleAndTerm (s : Node) : Node :=
  { s with store := { s.store with
      mLogStoreTerm := s.raft.currentTerm
      mLogStoreRole := s.raft.role } }

/-- `dequeue` takes the oldest item. -/
def dequeue (s : Node) : Option Node :=
  match s.store.mPersistQueue, s.store.dequeuing with
  | e :: rest, none => some { s with store := { s.store with mPersistQueue := rest, dequeuing := some (.popped e) } }
  | _, _ => none

/-- The request asks for the index after the last one that was asked for, in the term in which the
command ran. -/
def sendNext (s : Node) (e : PersistEntry) : Node :=
  { s with
    tasks := s.tasks ++
      [⟨s.store.mLastSentLogIndex + 1, e.expectedTerm, e.version, false, e.request, e.response, e.events⟩]
    store := { s.store with
      mBatchReqs := s.store.mBatchReqs ++
        [⟨s.store.mLastSentLogIndex + 1, e.expectedTerm, some e.events⟩]
      dequeuing := some (.sent s.store.mLastSentLogIndex) } }

/-- `dequeue` from its load of `mLastSentLogIndex` up to its compare-and-swap. -/
def send (s : Node) : Option Node :=
  match s.store.dequeuing with
  | some (.popped e) => some (s.sendNext e)
  | _ => none

/-- The end of `dequeue`: the index is left alone if a new leader has changed it. -/
def compareExchange (s : Node) : Option Node :=
  match s.store.dequeuing with
  | some (.sent previousLogIndex) => some
    { s with store := { s.store with
        mLastSentLogIndex :=
          if s.store.mLastSentLogIndex = previousLogIndex then previousLogIndex + 1
          else s.store.mLastSentLogIndex
        dequeuing := none } }
  | _ => none

def sendBatch (s : Node) : Node :=
  { s with
    raft := s.raft.enqueueClientRequests s.store.mBatchReqs
    store := { s.store with mBatchReqs := [] } }

end Persist

end Node

end Goblin.Engine
