import Goblin.ObjectStore.WorkingSets

/-! `MigrationManager`: scan and export tasks on the threads of a pool, the task sets of each migrating shard,
and the progress that is reported. -/
namespace Goblin.ObjectStore.Migration

open Model Store

abbrev TaskID := ℕ

inductive ShardStatus
  | SCANNING | EXPORTING | MIGRATED
  deriving DecidableEq, Repr

inductive OverallStatus
  | RUNNING | SUCCEEDED
  deriving DecidableEq, Repr

structure MigratingShardInfo where
  mScanTasks : Finset TaskID := ∅
  mExportTasks : Finset TaskID := ∅
  deriving DecidableEq

/-- `getProgressEvent`; the message gives the two sizes. -/
structure MigrationEvent where
  shardId : ShardIdType
  status : ShardStatus
  remainingScan : ℕ
  remainingExport : ℕ
  deriving DecidableEq, Repr

structure MigrationProgress where
  taskId : ℕ
  event : MigrationEvent
  overallStatus : OverallStatus
  deriving DecidableEq, Repr

namespace MigratingShardInfo

def isDone (i : MigratingShardInfo) : Prop := i.mScanTasks = ∅ ∧ i.mExportTasks = ∅

instance (i : MigratingShardInfo) : Decidable i.isDone := inferInstanceAs (Decidable (_ ∧ _))

def getProgressEvent (i : MigratingShardInfo) (shardId : ShardIdType) : MigrationEvent where
  shardId := shardId
  status :=
    if i.mExportTasks.card ≠ 0 then .EXPORTING
    else if i.mScanTasks.card ≠ 0 then .SCANNING
    else .MIGRATED
  remainingScan := i.mScanTasks.card
  remainingExport := i.mExportTasks.card

def addScanTask (id : TaskID) (i : MigratingShardInfo) : MigratingShardInfo :=
  { i with mScanTasks := insert id i.mScanTasks }

def addExportTask (id : TaskID) (i : MigratingShardInfo) : MigratingShardInfo :=
  { i with mExportTasks := insert id i.mExportTasks }

def markScanTaskDone (id : TaskID) (i : MigratingShardInfo) : MigratingShardInfo :=
  { i with mScanTasks := i.mScanTasks.erase id }

def markExportTaskDone (id : TaskID) (i : MigratingShardInfo) : MigratingShardInfo :=
  { i with mExportTasks := i.mExportTasks.erase id }

end MigratingShardInfo

/-- How far a scan task has got. `entering` is the loop of its creator that adds it to the shards, `handing`
the loop of `onCommandFinished` that adds the export task; the iterator of the response is null, or has a
value left or not. -/
inductive ScanPc
  | entering (rest : List ShardIdType)
  | scanning
  | handing (exportId : TaskID) (iterator : Option Bool)
  | marking (rest : List ShardIdType)
  deriving DecidableEq, Repr

structure ScanTask where
  mWSName : WSName
  mShardIds : List ShardIdType
  specific : Bool := false
  pc : ScanPc
  deriving DecidableEq, Repr

/-- How far an export task has got. `running` is the export and the deletion, `rescanning` the loop that adds
a scan task for failed keys, `checking` the loop of `markExportTaskDone` over the shards, under the mutex. -/
inductive ExportPc
  | entering (rest : List ShardIdType)
  | running
  | rescanning (scanId : TaskID)
  | marking (rest : List ShardIdType)
  | checking (rest : List ShardIdType) (event : MigrationEvent) (left : List ShardIdType)
  deriving DecidableEq, Repr

structure ExportTask where
  mWSName : WSName
  mShardIds : List ShardIdType
  pc : ExportPc
  deriving DecidableEq, Repr

/-- `mMigratingInfo` is `info` on the keys `shards`. `groups` are the working sets that `startMigration` has
yet to hand out, `starting` the scan task that it is handing out. -/
structure State where
  mMigrationTaskID : ℕ := 0
  shards : List ShardIdType := []
  info : ShardIdType → MigratingShardInfo := fun _ => {}
  groups : List (WSName × List ShardIdType) := []
  starting : Option TaskID := none
  scanOf : TaskID → Option ScanTask := fun _ => none
  exportOf : TaskID → Option ExportTask := fun _ => none
  mMaxTaskID : TaskID := 0
  mMutex : Option TaskID := none
  reports : List MigrationProgress := []
  crashed : Bool := false

/-- `shardsPerWS[cf].push_back(id)`, in a map in the order of its names. -/
def pushShard (name : WSName) (id : ShardIdType) :
    List (WSName × List ShardIdType) → List (WSName × List ShardIdType)
  | [] => [(name, [id])]
  | (n, ids) :: rest =>
    if name = n then (n, ids ++ [id]) :: rest
    else if name < n then (name, [id]) :: (n, ids) :: rest
    else (n, ids) :: pushShard name id rest

def shardsPerWS (ids : List ShardIdType) : List (WSName × List ShardIdType) :=
  ids.foldl (fun m id => pushShard (shardIdToColumnFamily kWorkingSetNamePrefix id kWorkingSetFactor) id m) []

/-- `startMigration` up to its loop over the working sets. -/
def startMigration (taskId : ℕ) (ids : List ShardIdType) : State where
  mMigrationTaskID := taskId
  shards := ids.dedup.insertionSort (· ≤ ·)
  groups := shardsPerWS ids

namespace State

def setInfo (s : State) (shardId : ShardIdType) (f : MigratingShardInfo → MigratingShardInfo) : State :=
  { s with info := Function.update s.info shardId (f (s.info shardId)) }

def setScan (s : State) (id : TaskID) (t : ScanTask) : State :=
  { s with scanOf := Function.update s.scanOf id (some t) }

def setExport (s : State) (id : TaskID) (t : ExportTask) : State :=
  { s with exportOf := Function.update s.exportOf id (some t) }

/-- `mMigrationReporter(progress)`, after which the mutex is released. -/
def report (s : State) (event : MigrationEvent) (overallStatus : OverallStatus) : State :=
  { s with
    reports := s.reports ++ [⟨s.mMigrationTaskID, event, overallStatus⟩]
    mMutex := none }

/-- One turn of the loop that adds a new scan task to its shards, or its submission once the loop is over. -/
def enterScan (s : State) (id : TaskID) : Option (State × Bool) :=
  match s.scanOf id with
  | some ⟨ws, ids, specific, .entering (shardId :: rest)⟩ =>
    some ((s.setInfo shardId (·.addScanTask id)).setScan id ⟨ws, ids, specific, .entering rest⟩, false)
  | some ⟨ws, ids, specific, .entering []⟩ => some (s.setScan id ⟨ws, ids, specific, .scanning⟩, true)
  | _ => none

/-- A task is created under the next id. -/
def newScan (s : State) (ws : WSName) (ids : List ShardIdType) (specific : Bool) : State :=
  { s.setScan s.mMaxTaskID ⟨ws, ids, specific, .entering ids⟩ with mMaxTaskID := s.mMaxTaskID + 1 }

def newExport (s : State) (ws : WSName) (ids : List ShardIdType) : State :=
  { s.setExport s.mMaxTaskID ⟨ws, ids, .entering ids⟩ with mMaxTaskID := s.mMaxTaskID + 1 }

end State

/-- A step of one thread. `scanned` is the end of the command of a scan task, `deleted` the end of the
deletion by an export task, with or without failed keys. -/
inductive Act
  | start
  | scanned (id : TaskID) (iterator : Option Bool)
  | hand (id : TaskID)
  | markScan (id : TaskID)
  | deleted (id : TaskID) (failed : Bool)
  | rescan (id : TaskID)
  | markExport (id : TaskID)
  | check (id : TaskID)
  deriving DecidableEq, Repr

/-- The loop of `startMigration`. -/
def stepStart (s : State) : Option State :=
  match s.starting with
  | some id => (s.enterScan id).map fun r => { r.1 with starting := if r.2 then none else some id }
  | none =>
    match s.groups with
    | [] => none
    | (ws, ids) :: groups => some { s.newScan ws ids false with groups := groups, starting := some s.mMaxTaskID }

/-- A scan of specific keys leaves the iterator null. -/
def stepScanned (s : State) (id : TaskID) (iterator : Option Bool) : Option State :=
  match s.scanOf id with
  | some ⟨ws, ids, specific, .scanning⟩ =>
    if specific ∧ iterator.isSome then none
    else some ((s.newExport ws ids).setScan id ⟨ws, ids, specific, .handing s.mMaxTaskID iterator⟩)
  | _ => none

/-- One turn of the loop that adds the export task to the shards. Once it is over the task is submitted and
the iterator is looked at, which it must not be if it is null. -/
def stepHand (s : State) (id : TaskID) : Option State :=
  match s.scanOf id with
  | some ⟨ws, ids, specific, .handing exportId iterator⟩ =>
    match s.exportOf exportId with
    | some ⟨ews, eids, .entering (shardId :: rest)⟩ =>
      some ((s.setInfo shardId (·.addExportTask exportId)).setExport exportId ⟨ews, eids, .entering rest⟩)
    | some ⟨ews, eids, .entering []⟩ =>
      let s := s.setExport exportId ⟨ews, eids, .running⟩
      match iterator with
      | none => some { s with crashed := true }
      | some true => some (s.setScan id ⟨ws, ids, specific, .scanning⟩)
      | some false => some (s.setScan id ⟨ws, ids, specific, .marking ids⟩)
    | _ => none
  | _ => none

def stepMarkScan (s : State) (id : TaskID) : Option State :=
  match s.scanOf id with
  | some ⟨ws, ids, specific, .marking (shardId :: rest)⟩ =>
    some ((s.setInfo shardId (·.markScanTaskDone id)).setScan id ⟨ws, ids, specific, .marking rest⟩)
  | _ => none

def stepDeleted (s : State) (id : TaskID) (failed : Bool) : Option State :=
  match s.exportOf id with
  | some ⟨ws, ids, .running⟩ =>
    if failed then some ((s.newScan ws ids true).setExport id ⟨ws, ids, .rescanning s.mMaxTaskID⟩)
    else some (s.setExport id ⟨ws, ids, .marking ids⟩)
  | _ => none

def stepRescan (s : State) (id : TaskID) : Option State :=
  match s.exportOf id with
  | some ⟨ws, ids, .rescanning scanId⟩ =>
    (s.enterScan scanId).map fun r =>
      r.1.setExport id ⟨ws, ids, if r.2 then .marking ids else .rescanning scanId⟩
  | _ => none

/-- `markExportTaskDone` up to its loop. -/
def stepMarkExport (s : State) (id : TaskID) : Option State :=
  match s.exportOf id with
  | some ⟨ws, ids, .marking (shardId :: rest)⟩ =>
    if s.mMutex = none then
      let s := s.setInfo shardId (·.markExportTaskDone id)
      some { s.setExport id ⟨ws, ids, .checking rest ((s.info shardId).getProgressEvent shardId) s.shards⟩ with
        mMutex := some id }
    else none
  | _ => none

/-- One turn of the loop over all shards; each shard is looked at on its own. -/
def stepCheck (s : State) (id : TaskID) : Option State :=
  match s.exportOf id with
  | some ⟨ws, ids, .checking rest event (shardId :: left)⟩ =>
    if (s.info shardId).isDone then some (s.setExport id ⟨ws, ids, .checking rest event left⟩)
    else some ((s.setExport id ⟨ws, ids, .marking rest⟩).report event .RUNNING)
  | some ⟨ws, ids, .checking rest event []⟩ =>
    some ((s.setExport id ⟨ws, ids, .marking rest⟩).report event .SUCCEEDED)
  | _ => none

def step (s : State) (a : Act) : Option State :=
  if s.crashed then none
  else
    match a with
    | .start => stepStart s
    | .scanned id iterator => stepScanned s id iterator
    | .hand id => stepHand s id
    | .markScan id => stepMarkScan s id
    | .deleted id failed => stepDeleted s id failed
    | .rescan id => stepRescan s id
    | .markExport id => stepMarkExport s id
    | .check id => stepCheck s id

end Goblin.ObjectStore.Migration
