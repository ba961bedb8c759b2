import Goblin.Model.Types

/-! Where keys are placed: the route info that the object manager hands out, and the tasks that move
shards between clusters. -/
namespace Goblin.Model

abbrev ShardIdType := ℕ

/-- `id1@ip1:port1,id2@ip2:port2,id3@ip3:port3` -/
abbrev ClusterAddressFormat := String

inductive ClusterStatus
  | INIT | IN_SERVICE | EXPORTING | IMPORTING | OUT_OF_SERVICE
  deriving DecidableEq, Repr

/-- Values that the protocol does not name are kept as they are. -/
inductive PartitionStrategy
  | HASH_MOD
  | unnamed (value : ℕ)
  deriving DecidableEq, Repr

/-- The hostnames of a `ClusterAddress`. -/
abbrev ClusterAddress := List String

structure ClusterWithShardSet where
  shards : List ShardIdType
  cluster : ClusterAddress
  deriving DecidableEq, Repr

/-- `clusterWithShards` is the placement map, and `allShards` and `strategy` are the partition info. -/
structure RouteInfo where
  version : ℕ := 0
  strategy : PartitionStrategy := .HASH_MOD
  allShards : List ShardIdType := []
  clusterWithShards : List ClusterWithShardSet := []
  allClusters : List ClusterAddress := []
  deriving DecidableEq, Repr

inductive MigrationStatus
  | NOT_START | PREPARED | RUNNING | SUCCEEDED | FAILED
  deriving DecidableEq, Repr

inductive MigrationShardStatus
  | INITED | SCANNING | EXPORTING | MIGRATED | STOPPED
  deriving DecidableEq, Repr

structure MigrationTask where
  taskId : ℕ := 0
  sourceCluster : ClusterAddress := []
  targetCluster : ClusterAddress := []
  migrateShards : List (ShardIdType × MigrationShardStatus) := []
  overallStatus : MigrationStatus := .NOT_START
  deriving DecidableEq, Repr

def clusterToAddressFormat : ClusterAddress → ClusterAddressFormat
  | [] => ""
  | server :: rest => rest.foldl (fun format s => format ++ ("," ++ s)) server

/-- The placement gives the shard to the cluster with this address. -/
def RouteInfo.Assigns (info : RouteInfo) (cluster : ClusterAddressFormat) (shard : ShardIdType) : Prop :=
  ∃ c ∈ info.clusterWithShards, clusterToAddressFormat c.cluster = cluster ∧ shard ∈ c.shards

instance (info : RouteInfo) (cluster : ClusterAddressFormat) (shard : ShardIdType) :
    Decidable (info.Assigns cluster shard) :=
  inferInstanceAs (Decidable (∃ c ∈ info.clusterWithShards, _))

def MigrationTask.Moves (task : MigrationTask) (shard : ShardIdType) : Prop :=
  ∃ s ∈ task.migrateShards, s.1 = shard

instance (task : MigrationTask) (shard : ShardIdType) : Decidable (task.Moves shard) :=
  inferInstanceAs (Decidable (∃ s ∈ task.migrateShards, _))

end Goblin.Model
