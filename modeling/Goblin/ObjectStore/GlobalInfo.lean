import Goblin.Model.Route

/-! What a server knows about the placement of shards: `GlobalInfo` and the lookup maps that it builds
from route infos and migration tasks. -/
namespace Goblin.ObjectStore

open Model List Function

/-- `mCluster2ShardIds` is a map to sets; a cluster without an entry makes `at` throw. -/
structure RouteInfoHelper where
  mRouteInfo : RouteInfo := {}
  mCluster2ShardIds : ClusterAddressFormat → Option (List ShardIdType) := fun _ => none

structure MigrationInfoHelp where
  mMigrationTask : MigrationTask := {}
  mShard2Status : ShardIdType → Option MigrationShardStatus := fun _ => none

namespace RouteInfoHelper

def getRouteVersion (h : RouteInfoHelper) : ℕ := h.mRouteInfo.version

def getPartionStrategy (h : RouteInfoHelper) : PartitionStrategy := h.mRouteInfo.strategy

/-- `none` where the source throws. -/
def checkIfInClusterScope (h : RouteInfoHelper) (cluster : ClusterAddressFormat) (shardId : ShardIdType) :
    Option Bool :=
  (h.mCluster2ShardIds cluster).map fun shards => decide (shardId ∈ shards)

def insertShard (m : ClusterAddressFormat → Option (List ShardIdType)) (cluster : ClusterAddressFormat)
    (id : ShardIdType) : ClusterAddressFormat → Option (List ShardIdType) :=
  update m cluster (some (id :: (m cluster).getD []))

/-- Nothing is taken out of the map. -/
def updateShardMap (h : RouteInfoHelper) : RouteInfoHelper :=
  let insertAll m (c : ClusterWithShardSet) :=
    c.shards.foldl (fun m id => insertShard m (clusterToAddressFormat c.cluster) id) m
  { h with mCluster2ShardIds := h.mRouteInfo.clusterWithShards.foldl insertAll h.mCluster2ShardIds }

def updateRouteInfo (h : RouteInfoHelper) (info : RouteInfo) : RouteInfoHelper :=
  updateShardMap { h with mRouteInfo := info }

end RouteInfoHelper

namespace MigrationInfoHelp

def getTargetCluster (h : MigrationInfoHelp) : ClusterAddressFormat :=
  clusterToAddressFormat h.mMigrationTask.targetCluster

def checkIfInMigrationShards (h : MigrationInfoHelp) (shardId : ShardIdType) : Bool :=
  (h.mShard2Status shardId).isSome

/-- Nothing is taken out of the map here either. -/
def updateMigrationMap (h : MigrationInfoHelp) : MigrationInfoHelp :=
  let insert (m : ShardIdType → Option MigrationShardStatus) (shard : ShardIdType × MigrationShardStatus) :=
    update m shard.1 (some shard.2)
  { h with mShard2Status := h.mMigrationTask.migrateShards.foldl insert h.mShard2Status }

def updateMigrationTask (h : MigrationInfoHelp) (task : MigrationTask) : MigrationInfoHelp :=
  updateMigrationMap { h with mMigrationTask := task }

end MigrationInfoHelp

structure Info where
  mMyClusterAddrFormat : ClusterAddressFormat := ""
  mStatus : ClusterStatus := .INIT
  mRouteInfoHelper : RouteInfoHelper := {}
  mMigrationInfoHelper : MigrationInfoHelp := {}

/-- The members and their cached copies, which `preExecuteCallBack` looks at. -/
structure GlobalInfo where
  latest : Info := {}
  cached : Info := {}

/-- The two calls `updateLatestInfo` and `updateLatestRouteInfo`. -/
inductive Update
  | onStartup (clusterAddr : ClusterAddress) (status : ClusterStatus) (info : RouteInfo)
      (task : MigrationTask)
  | onMigration (status : ClusterStatus) (info : RouteInfo) (task : MigrationTask)
  | onRoute (info : RouteInfo)

def Info.updateLatestInfo (i : Info) (status : ClusterStatus) (info : RouteInfo) (task : MigrationTask) :
    Info :=
  { i with
    mStatus := status
    mRouteInfoHelper := i.mRouteInfoHelper.updateRouteInfo info
    mMigrationInfoHelper := i.mMigrationInfoHelper.updateMigrationTask task }

def Info.update (i : Info) : Update → Info
  | .onStartup clusterAddr status info task =>
    { i with mMyClusterAddrFormat := clusterToAddressFormat clusterAddr }.updateLatestInfo status info task
  | .onMigration status info task => i.updateLatestInfo status info task
  | .onRoute info => { i with mRouteInfoHelper := i.mRouteInfoHelper.updateRouteInfo info }

def GlobalInfo.update (g : GlobalInfo) (u : Update) : GlobalInfo :=
  ⟨g.latest.update u, g.cached.update u⟩

def GlobalInfo.updates (g : GlobalInfo) (us : List Update) : GlobalInfo := us.foldl GlobalInfo.update g

section Lookups

variable {m : ClusterAddressFormat → Option (List ShardIdType)} {c cluster : ClusterAddressFormat}
  {s : ShardIdType}

theorem mem_insertShard {id : ShardIdType} :
    (RouteInfoHelper.insertShard m cluster id c).any (s ∈ ·) ↔
      c = cluster ∧ s = id ∨ (m c).any (s ∈ ·) := by
  unfold RouteInfoHelper.insertShard
  by_cases hc : c = cluster
  · subst hc
    cases hm : m c <;> simp
  · simp [hc]

theorem mem_foldl_insertShard {ids : List ShardIdType} :
    (ids.foldl (fun m id => RouteInfoHelper.insertShard m cluster id) m c).any (s ∈ ·) ↔
      c = cluster ∧ s ∈ ids ∨ (m c).any (s ∈ ·) := by
  induction ids generalizing m with
  | nil => simp
  | cons id ids ih =>
    rw [foldl_cons, ih, mem_insertShard, mem_cons]
    tauto

theorem isSome_foldl_insertShard {ids : List ShardIdType} :
    (ids.foldl (fun m id => RouteInfoHelper.insertShard m cluster id) m c).isSome ↔
      (c = cluster ∧ ∃ s, s ∈ ids) ∨ (m c).isSome := by
  induction ids generalizing m with
  | nil => simp
  | cons id ids ih =>
    rw [foldl_cons, ih]
    by_cases hc : c = cluster <;> simp [RouteInfoHelper.insertShard, hc]

namespace RouteInfoHelper

theorem checkIfInClusterScope_eq_true {h : RouteInfoHelper} :
    h.checkIfInClusterScope c s = some true ↔ (h.mCluster2ShardIds c).any (s ∈ ·) := by
  cases hc : h.mCluster2ShardIds c <;> simp [checkIfInClusterScope, hc]

theorem mem_updateShardMap {placement : List ClusterWithShardSet} :
    (placement.foldl (fun m c => c.shards.foldl
        (fun m id => insertShard m (clusterToAddressFormat c.cluster) id) m) m c).any (s ∈ ·) ↔
      (∃ e ∈ placement, clusterToAddressFormat e.cluster = c ∧ s ∈ e.shards) ∨ (m c).any (s ∈ ·) := by
  induction placement generalizing m with
  | nil => simp
  | cons e placement ih =>
    rw [foldl_cons, ih, mem_foldl_insertShard]
    simp only [mem_cons, exists_eq_or_imp]
    rw [eq_comm (a := c), or_left_comm, or_assoc]

theorem isSome_updateRouteInfo (h : RouteInfoHelper) (info : RouteInfo) :
    ((h.updateRouteInfo info).mCluster2ShardIds c).isSome ↔
      (∃ s, info.Assigns c s) ∨ (h.mCluster2ShardIds c).isSome := by
  have hfold (placement : List ClusterWithShardSet) (m : ClusterAddressFormat → Option (List ShardIdType)) :
      (placement.foldl (fun m c => c.shards.foldl
          (fun m id => insertShard m (clusterToAddressFormat c.cluster) id) m) m c).isSome ↔
        (∃ e ∈ placement, clusterToAddressFormat e.cluster = c ∧ ∃ s, s ∈ e.shards) ∨ (m c).isSome := by
    induction placement generalizing m with
    | nil => simp
    | cons e placement ih =>
      rw [foldl_cons, ih, isSome_foldl_insertShard]
      simp only [mem_cons, exists_eq_or_imp]
      rw [eq_comm (a := c), or_left_comm, or_assoc]
  refine (hfold info.clusterWithShards h.mCluster2ShardIds).trans (or_congr_left ?_)
  constructor
  · rintro ⟨e, he, hcluster, s, hs⟩
    exact ⟨s, e, he, hcluster, hs⟩
  · rintro ⟨s, e, he, hcluster, hs⟩
    exact ⟨e, he, hcluster, s, hs⟩

theorem checkIfInClusterScope_updateRouteInfo (h : RouteInfoHelper) (info : RouteInfo) :
    (h.updateRouteInfo info).checkIfInClusterScope c s = some true ↔
      info.Assigns c s ∨ h.checkIfInClusterScope c s = some true := by
  rw [checkIfInClusterScope_eq_true, checkIfInClusterScope_eq_true]
  exact mem_updateShardMap

end RouteInfoHelper

theorem MigrationInfoHelp.checkIfInMigrationShards_updateMigrationTask (h : MigrationInfoHelp)
    (task : MigrationTask) : (h.updateMigrationTask task).checkIfInMigrationShards s = true ↔
      task.Moves s ∨ h.checkIfInMigrationShards s = true := by
  have hfold (shards : List (ShardIdType × MigrationShardStatus))
      (m : ShardIdType → Option MigrationShardStatus) :
      (shards.foldl (fun (m : ShardIdType → Option MigrationShardStatus) shard =>
          update m shard.1 (some shard.2)) m s).isSome ↔
        (∃ shard ∈ shards, shard.1 = s) ∨ (m s).isSome := by
    induction shards generalizing m with
    | nil => simp
    | cons shard shards ih =>
      rw [foldl_cons, ih]
      simp only [mem_cons, exists_eq_or_imp]
      by_cases hs : shard.1 = s
      · simp [hs]
      · simp [hs, update_of_ne (Ne.symm hs)]
  exact hfold task.migrateShards h.mShard2Status

end Lookups

namespace Update

def route : Update → RouteInfo
  | .onStartup _ _ info _ => info
  | .onMigration _ info _ => info
  | .onRoute info => info

def task? : Update → Option MigrationTask
  | .onStartup _ _ _ task => some task
  | .onMigration _ _ task => some task
  | .onRoute _ => none

end Update

section Updates

variable {c : ClusterAddressFormat} {s : ShardIdType}

theorem Info.mRouteInfo_update (i : Info) (u : Update) : (i.update u).mRouteInfoHelper.mRouteInfo = u.route := by
  cases u <;> rfl

theorem Info.scope_update (i : Info) (u : Update) :
    (i.update u).mRouteInfoHelper.checkIfInClusterScope c s = some true ↔
      u.route.Assigns c s ∨ i.mRouteInfoHelper.checkIfInClusterScope c s = some true := by
  cases u <;> exact RouteInfoHelper.checkIfInClusterScope_updateRouteInfo _ _

theorem Info.migration_update (i : Info) (u : Update) :
    (i.update u).mMigrationInfoHelper.checkIfInMigrationShards s = true ↔
      (∃ task ∈ u.task?, task.Moves s) ∨ i.mMigrationInfoHelper.checkIfInMigrationShards s = true := by
  cases u with
  | onRoute info => simp [Info.update, Update.task?]
  | onStartup clusterAddr status info task | onMigration status info task =>
    simp only [Update.task?, Option.mem_some_iff, exists_eq_left']
    exact i.mMigrationInfoHelper.checkIfInMigrationShards_updateMigrationTask task

theorem GlobalInfo.cached_updates (g : GlobalInfo) (us : List Update) :
    (g.updates us).cached = us.foldl Info.update g.cached := by
  induction us generalizing g with
  | nil => rfl
  | cons u us ih => exact ih (g.update u)

theorem Info.scope_updates (i : Info) (us : List Update) :
    (us.foldl Info.update i).mRouteInfoHelper.checkIfInClusterScope c s = some true ↔
      (∃ u ∈ us, u.route.Assigns c s) ∨ i.mRouteInfoHelper.checkIfInClusterScope c s = some true := by
  induction us generalizing i with
  | nil => simp
  | cons u us ih =>
    rw [foldl_cons, ih, Info.scope_update]
    simp only [mem_cons, exists_eq_or_imp]
    rw [or_left_comm, or_assoc]

theorem Info.migration_updates (i : Info) (us : List Update) :
    (us.foldl Info.update i).mMigrationInfoHelper.checkIfInMigrationShards s = true ↔
      (∃ u ∈ us, ∃ task ∈ u.task?, task.Moves s) ∨
        i.mMigrationInfoHelper.checkIfInMigrationShards s = true := by
  induction us generalizing i with
  | nil => simp
  | cons u us ih =>
    rw [foldl_cons, ih, Info.migration_update]
    simp only [mem_cons, exists_eq_or_imp]
    rw [or_left_comm, or_assoc]

end Updates

def lastRoute (us : List Update) : RouteInfo := (us.getLast?.map Update.route).getD {}

def lastTask (us : List Update) : MigrationTask := (us.filterMap Update.task?).getLast?.getD {}

/-- No update takes a shard away from a cluster or out of the migration task. -/
structure OnlyGrows (us : List Update) : Prop where
  routes : ∀ u ∈ us, ∀ c s, u.route.Assigns c s → (lastRoute us).Assigns c s
  tasks : ∀ u ∈ us, ∀ task ∈ u.task?, ∀ s, task.Moves s → (lastTask us).Moves s

theorem exists_mem_of_lastRoute_assigns {us : List Update} {c : ClusterAddressFormat} {s : ShardIdType}
    (h : (lastRoute us).Assigns c s) : ∃ u ∈ us, u.route.Assigns c s := by
  unfold lastRoute at h
  cases hlast : us.getLast? with
  | none => simp [hlast, RouteInfo.Assigns] at h
  | some u => exact ⟨u, mem_of_getLast? hlast, by simpa [hlast] using h⟩

theorem exists_mem_of_lastTask_moves {us : List Update} {s : ShardIdType}
    (h : (lastTask us).Moves s) : ∃ u ∈ us, ∃ task ∈ u.task?, task.Moves s := by
  unfold lastTask at h
  cases hlast : (us.filterMap Update.task?).getLast? with
  | none => simp [hlast, MigrationTask.Moves] at h
  | some task =>
    obtain ⟨u, hu, htask⟩ := mem_filterMap.mp (mem_of_getLast? hlast)
    exact ⟨u, hu, task, htask, by simpa [hlast] using h⟩

/-- The lookups agree with the last route info and the last task exactly if these still hold all that the
earlier ones had. -/
theorem serves_exactly_iff (us : List Update) :
    ((∀ c s, (GlobalInfo.updates {} us).cached.mRouteInfoHelper.checkIfInClusterScope c s = some true ↔
        (lastRoute us).Assigns c s) ∧
      ∀ s, (GlobalInfo.updates {} us).cached.mMigrationInfoHelper.checkIfInMigrationShards s = true ↔
        (lastTask us).Moves s) ↔ OnlyGrows us := by
  have hscope c s := Info.scope_updates (c := c) (s := s) {} us
  have hmigration s := Info.migration_updates (s := s) {} us
  rw [← GlobalInfo.cached_updates {}] at hscope hmigration
  simp only [RouteInfoHelper.checkIfInClusterScope, MigrationInfoHelp.checkIfInMigrationShards,
    Option.map_none, Option.isSome_none, reduceCtorEq, Bool.false_eq_true, or_false] at hscope hmigration
  constructor
  · rintro ⟨hroute, htask⟩
    refine ⟨fun u hu c s hassigns => ?_, fun u hu task hmem s hmoves => ?_⟩
    · exact (hroute c s).mp ((hscope c s).mpr ⟨u, hu, hassigns⟩)
    · exact (htask s).mp ((hmigration s).mpr ⟨u, hu, task, hmem, hmoves⟩)
  · intro h
    refine ⟨fun c s => (hscope c s).trans ⟨?_, exists_mem_of_lastRoute_assigns⟩,
      fun s => (hmigration s).trans ⟨?_, exists_mem_of_lastTask_moves⟩⟩
    · rintro ⟨u, hu, hassigns⟩
      exact h.routes u hu c s hassigns
    · rintro ⟨u, hu, task, hmem, hmoves⟩
      exact h.tasks u hu task hmem s hmoves

/-- Shard 0 moves from cluster `a` to cluster `b`, and the server of `a` learns of it. -/
def shardMoved : List Update :=
  [.onStartup ["a"] .IN_SERVICE { version := 1, clusterWithShards := [⟨[0, 1], ["a"]⟩] } {},
    .onRoute { version := 2, clusterWithShards := [⟨[1], ["a"]⟩, ⟨[0], ["b"]⟩] }]

theorem shardMoved_serves_both : ¬ (lastRoute shardMoved).Assigns "a" 0 ∧
    (GlobalInfo.updates {} shardMoved).cached.mRouteInfoHelper.checkIfInClusterScope "a" 0 = some true := by
  decide

end Goblin.ObjectStore
