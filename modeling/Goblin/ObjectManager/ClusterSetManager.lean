import Goblin.ObjectManager.Registry

/-! `ClusterSetManager` with `Cluster` and `Migration`: the requests to the object manager as programs over
its KV engine. A failed assertion, an exception and a search that never ends all abort. -/
namespace Goblin.ObjectManager

open Model

/-- The texts that the engine itself puts in a header are left out. -/
structure ResponseHeader where
  code : ResponseCode
  message : String := ""
  deriving DecidableEq, Repr

structure Cluster where
  mClusterInfo : ClusterInfo
  mClusterId : ClusterIdType
  mVersion : ℕ
  deriving DecidableEq, Repr

structure Migration where
  mMigrationTask : MigrationTask
  mVersion : ℕ
  deriving DecidableEq, Repr

structure ClusterSetManager where
  mVersion : ℕ := NON_VERSION
  mClusterSetGlobalInfo : ClusterSetGlobalInfo := {}
  mClusterVector : List Cluster := []
  mMigrationVector : List Migration := []
  deriving DecidableEq, Repr

def orAbort {α : Type} : Option α → KVProg α
  | some a => .ret a
  | none => .abort

namespace Cluster

def getStatus (c : Cluster) : ClusterStatus := c.mClusterInfo.status

def getServerAddresses (c : Cluster) : ClusterAddress := c.mClusterInfo.addr

def fillPrecondition (c : Cluster) (clusterId : ClusterIdType) : Precond :=
  .version (buildClusterKey clusterId) c.mVersion

def setStatus (c : Cluster) (newStatus : ClusterStatus) : Cluster :=
  { c with mClusterInfo := { c.mClusterInfo with status := newStatus } }

/-- The entries that are added to the transaction, and the object after the call. -/
def updateInTransaction (c : Cluster) (newStatus : ClusterStatus) : List (KeyType × Value) × Cluster :=
  if c.getStatus = newStatus then ([], c)
  else
    let c := c.setStatus newStatus
    ([(buildClusterKey c.mClusterId, .clusterInfo c.mClusterInfo)], c)

def hostEntries (clusterId : ClusterIdType) (addresses : ClusterAddress) : List (KeyType × Value) :=
  addresses.map fun hostname => (hostname, .clusterId clusterId)

/-- Host entries of addresses that the cluster had before and has no longer are not removed. -/
def updateClusterInTransaction (c : Cluster) (addresses : ClusterAddress) :
    List Precond × List (KeyType × Value) :=
  ([.exist (buildClusterKey c.mClusterId) true],
    hostEntries c.mClusterId addresses ++
      [(buildClusterKey c.mClusterId, .clusterInfo ⟨addresses, c.getStatus⟩)])

def createInTransaction (newClusterId : ClusterIdType) (addresses : ClusterAddress) :
    List Precond × List (KeyType × Value) :=
  (.exist (buildClusterKey newClusterId) false :: addresses.map (.exist · false),
    hostEntries newClusterId addresses ++
      [(buildClusterKey newClusterId, .clusterInfo ⟨addresses, .INIT⟩)])

/-- `std::stoi` throws for ids that are not an `int`. -/
def stoi : Value → Option ClusterIdType
  | .clusterId id => if id < 2 ^ 31 then some id else none
  | _ => none

/-- The loop over the results: how many hosts are known, and the cluster of the first known one. -/
def countHosts : List (Option Cell) → ℕ → Option Value → Option (ℕ × Option Value)
  | [], existingKeyCount, clusterIdStr => some (existingKeyCount, clusterIdStr)
  | none :: results, existingKeyCount, clusterIdStr => countHosts results existingKeyCount clusterIdStr
  | some (value, _) :: results, existingKeyCount, none => countHosts results (existingKeyCount + 1) (some value)
  | some (value, _) :: results, existingKeyCount, some clusterIdStr =>
    if clusterIdStr ≠ value then none
    else countHosts results (existingKeyCount + 1) (some clusterIdStr)

/-- What the results of the batch come to: a code, the number of known hosts and their cluster. -/
def sameCluster (results : List (Option Cell)) : Option (ResponseCode × ℕ × ClusterIdType) :=
  match countHosts results 0 none with
  | none => some (.BAD_REQUEST, 0, NON_CLUSTER_ID)
  | some (existingKeyCount, none) => some (.OK, existingKeyCount, NON_CLUSTER_ID)
  | some (existingKeyCount, some clusterIdStr) =>
    (stoi clusterIdStr).map fun clusterId => (.OK, existingKeyCount, clusterId)

def isAddressInSameCluster (addresses : ClusterAddress) : KVProg (ResponseCode × ℕ × ClusterIdType) := do
  let results ← KVEngine.exeBatch addresses
  orAbort (sameCluster results)

end Cluster

namespace Migration

def fillPrecondition (m : Migration) : Precond :=
  .version (buildMigrationTaskKey m.mMigrationTask.taskId) m.mVersion

def updateInTransaction (m : Migration) (newStatus : MigrationStatus) :
    Option (List (KeyType × Value) × Migration) :=
  if m.mMigrationTask.overallStatus = newStatus then none
  else
    let task := { m.mMigrationTask with overallStatus := newStatus }
    some ([(buildMigrationTaskKey task.taskId, .migrationTask task)], { m with mMigrationTask := task })

end Migration

namespace ClusterSetManager

def parseCluster (clusterId : ClusterIdType) : Cell → Option Cluster
  | (.clusterInfo info, version) => some ⟨info, clusterId, version⟩
  | _ => none

def parseMigration (_ : MigrationTaskIdType) : Cell → Option Migration
  | (.migrationTask task, version) => some ⟨task, version⟩
  | _ => none

/-- `none` if a record is not found; a record that cannot be parsed fails an assertion. -/
def loadAll {β γ : Type} (parse : β → Cell → Option γ) : List (β × Option Cell) → KVProg (Option (List γ))
  | [] => return some []
  | (_, none) :: _ => return none
  | (id, some cell) :: rest => do
    let x ← orAbort (parse id cell)
    let xs ← loadAll parse rest
    return xs.map (x :: ·)

def recordKeys (info : ClusterSetGlobalInfo) : List KeyType :=
  info.clusterIds.map buildClusterKey ++ info.migrationTaskIds.map buildMigrationTaskKey

/-- The records in the order in which they were asked for. -/
def loadRecords (m : ClusterSetManager) (results : List (Option Cell)) :
    KVProg (ResponseHeader × ClusterSetManager) := do
  let info := m.mClusterSetGlobalInfo
  let clusterSize := info.clusterIds.length
  match ← loadAll parseCluster (info.clusterIds.zip (results.take clusterSize)) with
  | none => return (⟨.KEY_NOT_EXIST, "ClusterSetManager::init, load cluster info failed"⟩, m)
  | some clusters =>
    let m := { m with mClusterVector := clusters }
    match ← loadAll parseMigration (info.migrationTaskIds.zip (results.drop clusterSize)) with
    | none => return (⟨.KEY_NOT_EXIST, "ClusterSetManager::init, load migration info failed"⟩, m)
    | some migrations => return (⟨.OK, ""⟩, { m with mMigrationVector := migrations })

/-- `init` once the global info was read. -/
def initFrom : Option Cell → KVProg (ResponseHeader × ClusterSetManager)
  | none => return (⟨.OK, "ClusterSetManager::init, get global cluster result failed"⟩, {})
  | some (.globalInfo info, version) =>
    let m : ClusterSetManager := { mVersion := version, mClusterSetGlobalInfo := info }
    let keys := recordKeys info
    let preconds := .version KEY_CLUSTER_GLOBAL_INFO version :: keys.map (.exist · true)
    if version = NON_VERSION then .abort
    else do
      match ← KVEngine.transRead preconds keys with
      | none =>
        return (⟨.PRECOND_NOT_MATCHED, "ClusterSetManager::init, load global info in transaction failed"⟩, m)
      | some results => m.loadRecords results
  | some _ => .abort

def init : KVProg (ResponseHeader × ClusterSetManager) := do
  initFrom (← KVEngine.get KEY_CLUSTER_GLOBAL_INFO)

def isEmtpy (m : ClusterSetManager) : Bool := m.mVersion = NON_VERSION

def hasMigrationTask (m : ClusterSetManager) : Bool := !m.mMigrationVector.isEmpty

def isOnlyOneCluster (m : ClusterSetManager) : Bool := m.mClusterVector.length = 1

def fillPrecondition (m : ClusterSetManager) : List Precond :=
  if m.isEmtpy then [.exist KEY_CLUSTER_GLOBAL_INFO false]
  else
    .version KEY_CLUSTER_GLOBAL_INFO m.mVersion ::
      (m.mClusterVector.zipWith Cluster.fillPrecondition m.mClusterSetGlobalInfo.clusterIds ++
        m.mMigrationVector.map Migration.fillPrecondition)

/-- Cluster ids are 32 bit unsigned. -/
def assignNewClusterId (m : ClusterSetManager) : ClusterIdType :=
  match m.mClusterSetGlobalInfo.clusterIds.getLast? with
  | none => 1
  | some last => (last + 1) % 2 ^ 32

def appendNewClusterId (m : ClusterSetManager) (clusterId : ClusterIdType) : Option ClusterSetManager :=
  let info := m.mClusterSetGlobalInfo
  if clusterId ∈ info.clusterIds then none
  else some { m with mClusterSetGlobalInfo := { info with clusterIds := info.clusterIds ++ [clusterId] } }

/-- The position of the first id that matches, and the object there. -/
def findById {β : Type} (ids : List ℕ) (objects : List β) (id : ℕ) : Option β :=
  (ids.idxOf? id).bind (objects[·]?)

def findClusterById (m : ClusterSetManager) (clusterId : ClusterIdType) : Option Cluster :=
  findById m.mClusterSetGlobalInfo.clusterIds m.mClusterVector clusterId

def findMigrationById (m : ClusterSetManager) (taskId : MigrationTaskIdType) : Option Migration :=
  findById m.mClusterSetGlobalInfo.migrationTaskIds m.mMigrationVector taskId

/-- The cluster that has the first of the addresses; there has to be one. -/
def findClusterByAddress (m : ClusterSetManager) (addresses : ClusterAddress) : Option Cluster :=
  addresses.head?.bind fun hostname0 => m.mClusterVector.find? (hostname0 ∈ ·.getServerAddresses)

def getRoutingCluster (m : ClusterSetManager) : List Cluster :=
  m.mClusterVector.filter fun c => c.getStatus = .EXPORTING ∨ c.getStatus = .IN_SERVICE

/-- The objects in `mClusterVector` are shared, so what is done to one of them is seen there. -/
def setCluster (m : ClusterSetManager) (c : Cluster) : ClusterSetManager :=
  { m with mClusterVector := m.mClusterVector.map fun d => if d.mClusterId = c.mClusterId then c else d }

def increaseGlobalRouteVersion (m : ClusterSetManager) : ClusterSetManager :=
  { m with mClusterSetGlobalInfo :=
      { m.mClusterSetGlobalInfo with routeVersion := m.mClusterSetGlobalInfo.routeVersion + 1 } }

def removeSuccessMigrationId (m : ClusterSetManager) (taskId : MigrationTaskIdType) : ClusterSetManager :=
  { m with mClusterSetGlobalInfo :=
      { m.mClusterSetGlobalInfo with
        migrationTaskIds := m.mClusterSetGlobalInfo.migrationTaskIds.filter (· ≠ taskId) } }

def updateInTransaction (m : ClusterSetManager) : KeyType × Value :=
  (KEY_CLUSTER_GLOBAL_INFO, .globalInfo m.mClusterSetGlobalInfo)

/-- The ring with the nodes of all clusters that serve. -/
def routingRing (cfg : RingConfig) (m : ClusterSetManager) : Option HashRing :=
  m.getRoutingCluster.foldlM (fun ring c => (ring.addClusterId cfg c.mClusterId).map Prod.fst) {}

def fillRouteInfo (cfg : RingConfig) (m : ClusterSetManager) : Option RouteInfo := do
  let hashRing ← m.routingRing cfg
  let shardMap := hashRing.extractShardConfig
  return {
    version := m.mClusterSetGlobalInfo.routeVersion
    strategy := .HASH_MOD
    allShards := List.range RING_LENGTH
    clusterWithShards := m.getRoutingCluster.map fun c => ⟨shardMap c.mClusterId, c.getServerAddresses⟩
    allClusters := m.getRoutingCluster.map Cluster.getServerAddresses }

end ClusterSetManager

/-- `routeInfo` is there only if `fillRouteInfo` was called. -/
structure Answer where
  header : ResponseHeader
  status : ClusterStatus := .INIT
  routeInfo : Option RouteInfo := none
  migrationTask : MigrationTask := {}
  deriving DecidableEq, Repr

namespace ClusterSetManager

/-- The transaction of a call, or the header with which it returns before. -/
abbrev Plan := Except ResponseHeader (List Precond × List (KeyType × Value))

def planNewCluster (m : ClusterSetManager) (addresses : ClusterAddress) : Plan :=
  let clusterId := m.assignNewClusterId
  match m.appendNewClusterId clusterId with
  | none => .error ⟨.BAD_REQUEST, "new cluster id has been occupied"⟩
  | some m' =>
    let (preconds, writes) := Cluster.createInTransaction clusterId addresses
    .ok (m.fillPrecondition ++ preconds, writes ++ [m'.updateInTransaction])

def planUpdate (m : ClusterSetManager) (clusterId : ClusterIdType) (addresses : ClusterAddress) : Plan :=
  match m.findClusterById clusterId with
  | none => .error ⟨.BAD_REQUEST, "cluster not found"⟩
  | some pCluster =>
    let (preconds, writes) := pCluster.updateClusterInTransaction addresses
    .ok (m.fillPrecondition ++ preconds, writes ++ [m.updateInTransaction])

def planAdd (m : ClusterSetManager) (addresses : ClusterAddress) (code : ResponseCode)
    (sameClusterCount : ℕ) (clusterId : ClusterIdType) : Plan :=
  if code ≠ .OK then
    .error ⟨code, "ClusterSetManager::addCluster, call isAddressInSameCluster failed"⟩
  else if m.hasMigrationTask then
    .error ⟨.BAD_REQUEST, "ClusterSetManager::addCluster, migration task in progress"⟩
  else if sameClusterCount = 0 then m.planNewCluster addresses
  else m.planUpdate clusterId addresses

def trans (preconds : List Precond) (writes : List (KeyType × Value)) : KVProg ResponseHeader := do
  let ok ← KVEngine.transWrite preconds writes
  return ⟨if ok then .OK else .PRECOND_NOT_MATCHED, ""⟩

def addCluster (m : ClusterSetManager) (addresses : ClusterAddress) : KVProg ResponseHeader := do
  let (code, sameClusterCount, clusterId) ← Cluster.isAddressInSameCluster addresses
  match m.planAdd addresses code sameClusterCount clusterId with
  | .error header => return header
  | .ok (preconds, writes) => trans preconds writes

/-- Only the first migration task is handed out. -/
def fillRouteAndMigrationInfo (cfg : RingConfig) (m : ClusterSetManager) :
    Option (RouteInfo × MigrationTask) := do
  let routeInfo ← m.fillRouteInfo cfg
  return (routeInfo, (m.mMigrationVector.head?.map Migration.mMigrationTask).getD {})

def startOnlyCluster (cfg : RingConfig) (m : ClusterSetManager) (pCluster : Cluster) : KVProg Answer := do
  let (writes, pCluster) := pCluster.updateInTransaction .IN_SERVICE
  let m' := (m.setCluster pCluster).increaseGlobalRouteVersion
  let header ← trans m.fillPrecondition (writes ++ [m'.updateInTransaction])
  if header.code ≠ .OK then return { header, status := pCluster.getStatus }
  else
    let routeInfo ← orAbort (m'.fillRouteInfo cfg)
    return { header := ⟨.OK, "ok"⟩, status := pCluster.getStatus, routeInfo }

/-- The shards that move to the new cluster are computed, but only whether there are any is looked at. -/
def onboardShards (cfg : RingConfig) (m : ClusterSetManager) (cluster : Cluster) : Option ShardMap := do
  let hashRing ← m.routingRing cfg
  let (_, clusterShardMap) ← hashRing.addClusterId cfg cluster.mClusterId (some [])
  clusterShardMap.filter fun shards => !shards.isEmpty

/-- The route version is not increased here. -/
def onboardCluster (cfg : RingConfig) (m : ClusterSetManager) (cluster : Cluster) : KVProg Answer := do
  let _ ← orAbort (m.onboardShards cfg cluster)
  let (writes, cluster) := cluster.updateInTransaction .IN_SERVICE
  let m' := m.setCluster cluster
  let header ← trans m.fillPrecondition (writes ++ [m'.updateInTransaction])
  if header.code ≠ .OK then return { header := ⟨header.code, "ok"⟩, status := cluster.getStatus }
  else
    let (routeInfo, migrationTask) ← orAbort (m'.fillRouteAndMigrationInfo cfg)
    return { header := ⟨.OK, "ok"⟩, status := cluster.getStatus, routeInfo, migrationTask }

/-- `startCluster` once the cluster is found. -/
def startFound (cfg : RingConfig) (m : ClusterSetManager) (header : ResponseHeader) (pCluster : Cluster) :
    KVProg Answer :=
  match pCluster.getStatus with
  | .OUT_OF_SERVICE =>
    return { header := ⟨.OK, "cluster status is out-of-service"⟩, status := .OUT_OF_SERVICE }
  | .IN_SERVICE => do
    let routeInfo ← orAbort (m.fillRouteInfo cfg)
    return { header := ⟨.OK, "cluster status is in-service"⟩, status := .IN_SERVICE, routeInfo }
  | .IMPORTING => do
    let (routeInfo, migrationTask) ← orAbort (m.fillRouteAndMigrationInfo cfg)
    return { header := ⟨.OK, "cluster status is importing/exporting"⟩, status := .IMPORTING,
             routeInfo, migrationTask }
  | .EXPORTING => do
    let (routeInfo, migrationTask) ← orAbort (m.fillRouteAndMigrationInfo cfg)
    return { header := ⟨.OK, "cluster status is importing/exporting"⟩, status := .EXPORTING,
             routeInfo, migrationTask }
  | .INIT =>
    if m.isOnlyOneCluster then m.startOnlyCluster cfg pCluster
    else if m.hasMigrationTask then return { header, status := .INIT }
    else m.onboardCluster cfg pCluster

def startCluster (cfg : RingConfig) (m : ClusterSetManager) (header : ResponseHeader)
    (addresses : ClusterAddress) : KVProg Answer := do
  let (code, sameClusterCount, clusterId) ← Cluster.isAddressInSameCluster addresses
  if code ≠ .OK then
    return { header := ⟨code, "ClusterSetManager::startCluster, call isAddressInSameCluster failed"⟩ }
  else if sameClusterCount < addresses.length ∨ clusterId = NON_CLUSTER_ID then
    return { header := ⟨.BAD_REQUEST, "ClusterSetManager::startCluster, bad cluster status"⟩ }
  else
    match m.findClusterById clusterId with
    | none => return { header := ⟨.BAD_REQUEST, "cluster not found"⟩ }
    | some pCluster => m.startFound cfg header pCluster

/-- What `handleMigrationSuccess` writes, and the objects after it. -/
def planMigrationSuccess (m : ClusterSetManager) (taskId : MigrationTaskIdType) :
    Option (List (KeyType × Value) × ClusterSetManager) := do
  let pMigrationTask ← m.findMigrationById taskId
  let pSourceCluster ← m.findClusterByAddress pMigrationTask.mMigrationTask.sourceCluster
  let pTargetCluster ← m.findClusterByAddress pMigrationTask.mMigrationTask.targetCluster
  let (sourceWrites, pSourceCluster) := pSourceCluster.updateInTransaction .IN_SERVICE
  -- the two may be the same object
  let pTargetCluster :=
    if pTargetCluster.mClusterId = pSourceCluster.mClusterId then pSourceCluster else pTargetCluster
  let (targetWrites, pTargetCluster) := pTargetCluster.updateInTransaction .IN_SERVICE
  let (taskWrites, _) ← pMigrationTask.updateInTransaction .SUCCEEDED
  let m' := (((m.setCluster pSourceCluster).setCluster pTargetCluster).increaseGlobalRouteVersion
    ).removeSuccessMigrationId taskId
  return (sourceWrites ++ targetWrites ++ taskWrites ++ [m'.updateInTransaction], m')

/-- With `endMigration`, which tells both clusters the new route info. -/
def handleMigrationSuccess (cfg : RingConfig) (m : ClusterSetManager) (taskId : MigrationTaskIdType) :
    KVProg Answer := do
  let (writes, m') ← orAbort (m.planMigrationSuccess taskId)
  let header ← trans m.fillPrecondition writes
  if header.code ≠ .OK then return { header }
  else
    let routeInfo ← orAbort (m'.fillRouteInfo cfg)
    return { header, routeInfo }

end ClusterSetManager

inductive Request
  | addCluster (addresses : ClusterAddress)
  | onStartup (addresses : ClusterAddress)
  | onMigration (taskId : MigrationTaskIdType) (overallStatus : MigrationStatus)
  | router
  deriving DecidableEq, Repr

namespace Request

/-- Every request works on a manager of its own. -/
def withManager (f : ResponseHeader → ClusterSetManager → KVProg Answer) : KVProg Answer := do
  let (header, m) ← ClusterSetManager.init
  if header.code ≠ .OK then return { header } else f header m

def insufficient : Answer := { header := ⟨.BAD_REQUEST, "Insufficient node found"⟩ }

def program (cfg : RingConfig) : Request → KVProg Answer
  | .addCluster addresses =>
    if addresses = [] then return insufficient
    else withManager fun _ m => do
      let header ← m.addCluster addresses
      return { header }
  | .onStartup addresses =>
    if addresses = [] then return insufficient
    else withManager fun header m => m.startCluster cfg header addresses
  | .onMigration taskId overallStatus =>
    match overallStatus with
    | .SUCCEEDED => withManager fun _ m => m.handleMigrationSuccess cfg taskId
    | .FAILED => return { header := ⟨.OK, "failure migration not handled"⟩ }
    | .NOT_START => return { header := ⟨.OK, "migration, overallStatus is 0"⟩ }
    | .PREPARED => return { header := ⟨.OK, "migration, overallStatus is 1"⟩ }
    | .RUNNING => return { header := ⟨.OK, "migration, overallStatus is 2"⟩ }
  | .router => withManager fun _ m => do
    let routeInfo ← orAbort (m.fillRouteInfo cfg)
    return { header := ⟨.OK, "ok"⟩, routeInfo }

end Request

end Goblin.ObjectManager
