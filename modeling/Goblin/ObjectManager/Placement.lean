import Goblin.ObjectManager.Serial

/-! The clusters that a store lists, what each change does to the list, and the route info as a function
of it. -/
namespace Goblin.ObjectManager

open Model Lib ClusterSetManager List Option

namespace KVStore

def record (s : KVStore) (id : ClusterIdType) : Option ClusterInfo :=
  match s.cells (buildClusterKey id) with
  | some (.clusterInfo info, _) => some info
  | _ => none

def task (s : KVStore) (id : MigrationTaskIdType) : Option MigrationTask :=
  match s.cells (buildMigrationTaskKey id) with
  | some (.migrationTask task, _) => some task
  | _ => none

end KVStore

/-- The global info and the records of its clusters, in its order. -/
structure Directory where
  info : ClusterSetGlobalInfo
  clusters : List (ClusterIdType × ClusterInfo)

def ClusterSetManager.directory (m : ClusterSetManager) : Directory where
  info := m.mClusterSetGlobalInfo
  clusters := m.mClusterVector.map fun c => (c.mClusterId, c.mClusterInfo)

structure Lists (s : KVStore) (d : Directory) : Prop where
  global : s.cells KEY_CLUSTER_GLOBAL_INFO = none ∧ d.info = {} ∨
    ∃ version, s.cells KEY_CLUSTER_GLOBAL_INFO = some (.globalInfo d.info, version)
  records : d.info.clusterIds.map (fun id => (id, s.record id)) = d.clusters.map fun p => (p.1, some p.2)
  tasks : ∀ id ∈ d.info.migrationTaskIds, (s.task id).isSome

attribute [local simp] KVStore.record KVStore.task

section Load

variable {s : KVStore} {m : ClusterSetManager} {d : Directory}

theorem mapM_parseCluster {ids : List ClusterIdType} {clusters : List Cluster}
    (h : (ids.mapM fun id => (s.cells (buildClusterKey id)).bind (parseCluster id)) = some clusters) :
    ids.map (fun id => (id, s.record id)) = clusters.map fun c => (c.mClusterId, some c.mClusterInfo) := by
  induction ids generalizing clusters with
  | nil =>
    cases h
    rfl
  | cons id ids ih =>
    rw [mapM_cons] at h
    obtain ⟨c, hc, h⟩ := bind_eq_some_iff.mp h
    obtain ⟨cs, hcs, h⟩ := bind_eq_some_iff.mp h
    cases h
    obtain ⟨⟨value, version⟩, hcell, hparse⟩ := bind_eq_some_iff.mp hc
    rw [map_cons, map_cons, ih hcs]
    cases value <;> cases hparse
    simp [hcell]

theorem mapM_parseMigration {ids : List MigrationTaskIdType} {migrations : List Migration}
    (h : (ids.mapM fun id => (s.cells (buildMigrationTaskKey id)).bind (parseMigration id)) =
      some migrations) : ∀ id ∈ ids, (s.task id).isSome := by
  induction ids generalizing migrations with
  | nil => nofun
  | cons id ids ih =>
    rw [mapM_cons] at h
    obtain ⟨c, hc, h⟩ := bind_eq_some_iff.mp h
    obtain ⟨cs, hcs, h⟩ := bind_eq_some_iff.mp h
    obtain ⟨⟨value, version⟩, hcell, hparse⟩ := bind_eq_some_iff.mp hc
    refine forall_mem_cons.mpr ⟨?_, ih hcs⟩
    cases value <;> cases hparse
    simp [hcell]

theorem lists_of_load (h : s.load = some m) : Lists s m.directory := by
  obtain ⟨hglobal, rfl⟩ | ⟨hglobal, hclusters, hmigrations⟩ := load_cases h
  · exact ⟨.inl ⟨hglobal, rfl⟩, rfl, nofun⟩
  · refine ⟨.inr ⟨_, hglobal⟩, ?_, mapM_parseMigration hmigrations⟩
    exact (mapM_parseCluster hclusters).trans (by simp [directory, Function.comp_def])

theorem Lists.exists_record (h : Lists s d) {id : ClusterIdType} (hid : id ∈ d.info.clusterIds) :
    ∃ info, s.record id = some info := by
  have hmem : (id, s.record id) ∈ d.clusters.map fun p => (p.1, some p.2) :=
    h.records ▸ mem_map.mpr ⟨id, hid, rfl⟩
  obtain ⟨p, _, hp⟩ := mem_map.mp hmem
  exact ⟨p.2, (Prod.mk.inj hp).2.symm⟩

theorem exists_mapM_parseCluster {ids : List ClusterIdType} {l : List (ClusterIdType × ClusterInfo)}
    (h : ids.map (fun id => (id, s.record id)) = l.map fun p => (p.1, some p.2)) :
    ∃ clusters, (ids.mapM fun id => (s.cells (buildClusterKey id)).bind (parseCluster id)) = some clusters ∧
      clusters.map (fun c => (c.mClusterId, c.mClusterInfo)) = l := by
  induction ids generalizing l with
  | nil =>
    obtain rfl : l = [] := by simpa using h.symm
    exact ⟨[], rfl, rfl⟩
  | cons id ids ih =>
    obtain _ | ⟨⟨id', info⟩, l⟩ := l
    · simp at h
    · simp only [map_cons, List.cons.injEq, Prod.mk.injEq] at h
      obtain ⟨⟨rfl, hrecord⟩, hl⟩ := h
      obtain ⟨clusters, hclusters, rfl⟩ := ih hl
      match hcell : s.cells (buildClusterKey id) with
      | some (.clusterInfo info', version) =>
        obtain rfl : info' = info := by simpa [hcell] using hrecord
        exact ⟨⟨info', id, version⟩ :: clusters, by simp [mapM_cons, hcell, hclusters, parseCluster], rfl⟩
      | none => simp [hcell] at hrecord
      | some (.globalInfo _, _) => simp [hcell] at hrecord
      | some (.migrationTask _, _) => simp [hcell] at hrecord
      | some (.clusterId _, _) => simp [hcell] at hrecord

theorem exists_mapM_parseMigration {ids : List MigrationTaskIdType} (h : ∀ id ∈ ids, (s.task id).isSome) :
    ∃ migrations, (ids.mapM fun id => (s.cells (buildMigrationTaskKey id)).bind (parseMigration id)) =
      some migrations := by
  induction ids with
  | nil => exact ⟨[], rfl⟩
  | cons id ids ih =>
    obtain ⟨hid, hids⟩ := forall_mem_cons.mp h
    obtain ⟨migrations, hmigrations⟩ := ih hids
    match hcell : s.cells (buildMigrationTaskKey id) with
    | some (.migrationTask task, version) =>
      exact ⟨⟨task, version⟩ :: migrations, by simp [mapM_cons, hcell, hmigrations, parseMigration]⟩
    | none => simp [hcell] at hid
    | some (.globalInfo _, _) => simp [hcell] at hid
    | some (.clusterInfo _, _) => simp [hcell] at hid
    | some (.clusterId _, _) => simp [hcell] at hid

theorem Lists.load (h : Lists s d) : ∃ m, s.load = some m ∧ m.directory = d := by
  obtain ⟨hglobal | ⟨version, hglobal⟩, hrecords, htasks⟩ := h
  · obtain ⟨hglobal, hinfo⟩ := hglobal
    refine ⟨{}, by simp [KVStore.load, hglobal], ?_⟩
    obtain ⟨info, clusters⟩ := d
    subst hinfo
    obtain rfl : clusters = [] := by simpa using hrecords.symm
    rfl
  · obtain ⟨clusters, hclusters, hl⟩ := exists_mapM_parseCluster hrecords
    obtain ⟨migrations, hmigrations⟩ := exists_mapM_parseMigration htasks
    refine ⟨⟨version, d.info, clusters, migrations⟩, ?_, ?_⟩
    · simp [KVStore.load, hglobal, hclusters, hmigrations]
    · simp [directory, hl]

end Load

section Writes

variable {s : KVStore} {writes : List (KeyType × Value)} {id : ℕ}

@[simp] theorem record_write_global (info : ClusterSetGlobalInfo) :
    (s.write (writes ++ [(KEY_CLUSTER_GLOBAL_INFO, .globalInfo info)])).record id =
      (s.write writes).record id := by
  simp [KVStore.cells_write_append]

@[simp] theorem task_write_global (info : ClusterSetGlobalInfo) :
    (s.write (writes ++ [(KEY_CLUSTER_GLOBAL_INFO, .globalInfo info)])).task id =
      (s.write writes).task id := by
  simp [KVStore.cells_write_append]

@[simp] theorem record_write_task (taskId : MigrationTaskIdType) (value : Value) :
    (s.write (writes ++ [(buildMigrationTaskKey taskId, value)])).record id =
      (s.write writes).record id := by
  simp [KVStore.cells_write_append]

theorem task_write_task (taskId : MigrationTaskIdType) (task : MigrationTask) :
    (s.write (writes ++ [(buildMigrationTaskKey taskId, .migrationTask task)])).task id =
      if id = taskId then some task else (s.write writes).task id := by
  by_cases h : id = taskId <;> simp [KVStore.cells_write_append, h]

theorem record_write_record (clusterId : ClusterIdType) (info : ClusterInfo) :
    (s.write (writes ++ [(buildClusterKey clusterId, .clusterInfo info)])).record id =
      if id = clusterId then some info else (s.write writes).record id := by
  by_cases h : id = clusterId <;> simp [KVStore.cells_write_append, h]

@[simp] theorem task_write_record (clusterId : ClusterIdType) (value : Value) :
    (s.write (writes ++ [(buildClusterKey clusterId, value)])).task id = (s.write writes).task id := by
  simp [KVStore.cells_write_append, Ne.symm buildClusterKey_ne_migration]

section Update

variable {s : KVStore} {id : ℕ} {c c' : Cluster} {newStatus : ClusterStatus} {entries : List (KeyType × Value)}

theorem record_write_update (writes : List (KeyType × Value))
    (h : c.updateInTransaction newStatus = (entries, c'))
    (hc : (s.write writes).record c.mClusterId = some c.mClusterInfo) :
    (s.write (writes ++ entries)).record id =
      if id = c.mClusterId then some c'.mClusterInfo else (s.write writes).record id := by
  unfold Cluster.updateInTransaction at h
  split_ifs at h with hstatus
  · cases h
    rw [append_nil]
    split_ifs with hid
    · rw [hid, hc]
    · rfl
  · cases h
    exact record_write_record c.mClusterId _

theorem task_write_update (writes : List (KeyType × Value))
    (h : c.updateInTransaction newStatus = (entries, c')) :
    (s.write (writes ++ entries)).task id = (s.write writes).task id := by
  unfold Cluster.updateInTransaction at h
  split_ifs at h
  · cases h
    rw [append_nil]
  · cases h
    exact task_write_record c.mClusterId _

theorem mClusterId_of_updateInTransaction (h : c.updateInTransaction newStatus = (entries, c')) :
    c'.mClusterId = c.mClusterId := by
  unfold Cluster.updateInTransaction at h
  split_ifs at h <;> cases h <;> rfl

end Update

theorem Lists.map {s s' : KVStore} {d : Directory} (h : Lists s d) {info : ClusterSetGlobalInfo} {version : ℕ}
    (hglobal : s'.cells KEY_CLUSTER_GLOBAL_INFO = some (.globalInfo info, version))
    (hids : info.clusterIds = d.info.clusterIds) (f : ClusterIdType → ClusterInfo → ClusterInfo)
    (hrecords : ∀ id ∈ d.info.clusterIds, s'.record id = (s.record id).map (f id))
    (htasks : ∀ id ∈ info.migrationTaskIds, (s'.task id).isSome) :
    Lists s' ⟨info, d.clusters.map fun p => (p.1, f p.1 p.2)⟩ := by
  refine ⟨.inr ⟨version, hglobal⟩, ?_, htasks⟩
  have hrec := congrArg (List.map fun p => (p.1, p.2.map (f p.1))) h.records
  rw [List.map_map, List.map_map] at hrec
  rw [hids, List.map_map]
  exact (map_congr_left fun id hid => by simp only [Function.comp, hrecords id hid]).trans hrec

end Writes

section Changes

variable {s : KVStore} {m : ClusterSetManager}

theorem record_of_mem (hload : s.load = some m) {c : Cluster} (hc : c ∈ m.mClusterVector) :
    s.record c.mClusterId = some c.mClusterInfo := by
  have hmem : (c.mClusterId, some c.mClusterInfo) ∈ m.directory.clusters.map fun p => (p.1, some p.2) := by
    simp only [directory, List.map_map]
    exact List.mem_map.mpr ⟨c, hc, rfl⟩
  rw [← (lists_of_load hload).records] at hmem
  obtain ⟨id, _, hid⟩ := mem_map.mp hmem
  obtain ⟨rfl, hrecord⟩ := Prod.mk.inj hid
  exact hrecord

theorem findClusterById_spec (hload : s.load = some m) {id : ClusterIdType} {c : Cluster}
    (hc : m.findClusterById id = some c) : c ∈ m.mClusterVector ∧ c.mClusterId = id := by
  obtain ⟨i, hi, hget⟩ := bind_eq_some_iff.mp hc
  refine ⟨mem_of_getElem? hget, ?_⟩
  have hid : m.mClusterSetGlobalInfo.clusterIds[i]? = some id := by
    obtain ⟨hlt, hid, _⟩ := idxOf?_eq_some_iff.mp hi
    exact List.getElem?_eq_some_iff.mpr ⟨hlt, hid⟩
  have hi := congrArg (fun l => l[i]?) (lists_of_load hload).records
  simpa [directory, hid, hget, eq_comm] using congrArg (Option.map Prod.fst) hi

theorem directory_setCluster (m : ClusterSetManager) (c : Cluster) :
    (m.setCluster c).directory = ⟨m.mClusterSetGlobalInfo, m.directory.clusters.map fun p =>
      (p.1, if p.1 = c.mClusterId then c.mClusterInfo else p.2)⟩ := by
  simp only [directory, setCluster, List.map_map, Directory.mk.injEq, true_and]
  refine List.map_congr_left fun d _ => ?_
  by_cases hd : d.mClusterId = c.mClusterId <;> simp [hd]

theorem lists_setStatus (hload : s.load = some m) {c c' : Cluster} (hc : c ∈ m.mClusterVector)
    {newStatus : ClusterStatus} {entries : List (KeyType × Value)}
    (hupdate : c.updateInTransaction newStatus = (entries, c')) {info : ClusterSetGlobalInfo}
    (hids : info.clusterIds = m.mClusterSetGlobalInfo.clusterIds)
    (htasks : info.migrationTaskIds = m.mClusterSetGlobalInfo.migrationTaskIds) :
    Lists (s.write (entries ++ [(KEY_CLUSTER_GLOBAL_INFO, .globalInfo info)]))
      ⟨info, (m.setCluster c').directory.clusters⟩ := by
  rw [directory_setCluster, mClusterId_of_updateInTransaction hupdate]
  refine (lists_of_load hload).map KVStore.cells_write_last hids
    (fun id r => if id = c.mClusterId then c'.mClusterInfo else r) (fun id _ => ?_) fun id hid => ?_
  · have hrecord := record_of_mem hload hc
    have hwrite : (s.write ([] ++ entries)).record id =
        if id = c.mClusterId then some c'.mClusterInfo else s.record id :=
      record_write_update [] hupdate hrecord
    rw [record_write_global, ← nil_append entries, hwrite]
    split_ifs with hid
    · rw [hid, hrecord, map_some]
    · exact map_id'.symm
  · rw [task_write_global, ← nil_append entries, task_write_update [] hupdate]
    exact (lists_of_load hload).tasks id (htasks ▸ hid)

theorem findClusterByAddress_mem {addresses : ClusterAddress} {c : Cluster}
    (h : m.findClusterByAddress addresses = some c) : c ∈ m.mClusterVector := by
  obtain ⟨_, -, hfind⟩ := bind_eq_some_iff.mp h
  exact mem_of_find?_eq_some hfind

/-- The object of the second cluster, which may be the first one after its update. -/
def afterUpdate (pTarget pSource : Cluster) : Cluster :=
  if pTarget.mClusterId = pSource.mClusterId then pSource else pTarget

theorem planMigrationSuccess_cases {m' : ClusterSetManager} {taskId : MigrationTaskIdType}
    {writes : List (KeyType × Value)} (h : m.planMigrationSuccess taskId = some (writes, m')) :
    ∃ pSource ∈ m.mClusterVector, ∃ pTarget ∈ m.mClusterVector, ∃ sourceWrites source targetWrites target,
      ∃ task : MigrationTask, pSource.updateInTransaction .IN_SERVICE = (sourceWrites, source) ∧
      (afterUpdate pTarget source).updateInTransaction .IN_SERVICE = (targetWrites, target) ∧
      m' = (((m.setCluster source).setCluster target).increaseGlobalRouteVersion).removeSuccessMigrationId
        taskId ∧
      writes = sourceWrites ++ targetWrites ++ [(buildMigrationTaskKey task.taskId, .migrationTask task)] ++
        [(KEY_CLUSTER_GLOBAL_INFO, .globalInfo m'.mClusterSetGlobalInfo)] := by
  obtain ⟨pMigrationTask, -, h⟩ := bind_eq_some_iff.mp h
  obtain ⟨pSource, hsource, h⟩ := bind_eq_some_iff.mp h
  obtain ⟨pTarget, htarget, h⟩ := bind_eq_some_iff.mp h
  obtain ⟨⟨taskWrites, _⟩, htask, h⟩ := bind_eq_some_iff.mp h
  obtain ⟨task, rfl⟩ : ∃ task : MigrationTask,
      taskWrites = [(buildMigrationTaskKey task.taskId, .migrationTask task)] := by
    unfold Migration.updateInTransaction at htask
    split_ifs at htask
    cases htask
    exact ⟨_, rfl⟩
  cases h
  exact ⟨pSource, findClusterByAddress_mem hsource, pTarget, findClusterByAddress_mem htarget, _, _, _, _,
    task, rfl, rfl, rfl, rfl⟩

theorem clusters_setCluster_setCluster (m : ClusterSetManager) (c c' : Cluster) :
    ((m.setCluster c).setCluster c').directory.clusters = m.directory.clusters.map fun p => (p.1,
      if p.1 = c'.mClusterId then c'.mClusterInfo
      else if p.1 = c.mClusterId then c.mClusterInfo else p.2) := by
  rw [directory_setCluster, directory_setCluster, List.map_map]
  rfl

theorem lists_migrated (hload : s.load = some m) {m' : ClusterSetManager} {taskId : MigrationTaskIdType}
    {writes : List (KeyType × Value)} (hplan : m.planMigrationSuccess taskId = some (writes, m')) :
    Lists (s.write writes) m'.directory := by
  obtain ⟨pSource, hsource, pTarget, htarget, sourceWrites, source, targetWrites, target, task, hsrc, htgt,
    hm', rfl⟩ := planMigrationSuccess_cases hplan
  have hsourceRecord (id : ClusterIdType) : (s.write sourceWrites).record id =
      if id = source.mClusterId then some source.mClusterInfo else s.record id := by
    rw [← nil_append sourceWrites, mClusterId_of_updateInTransaction hsrc]
    exact record_write_update [] hsrc (record_of_mem hload hsource)
  have htargetRecord : (s.write sourceWrites).record (afterUpdate pTarget source).mClusterId =
      some (afterUpdate pTarget source).mClusterInfo := by
    by_cases hid : pTarget.mClusterId = source.mClusterId
    · rw [afterUpdate, if_pos hid, hsourceRecord, if_pos rfl]
    · rw [afterUpdate, if_neg hid, hsourceRecord, if_neg hid]
      exact record_of_mem hload htarget
  have hclusters : m'.directory.clusters = m.directory.clusters.map fun p => (p.1,
      if p.1 = target.mClusterId then target.mClusterInfo
      else if p.1 = source.mClusterId then source.mClusterInfo else p.2) := by
    rw [hm']
    exact clusters_setCluster_setCluster m source target
  have hids : m'.mClusterSetGlobalInfo.clusterIds = m.mClusterSetGlobalInfo.clusterIds := by
    rw [hm']
    rfl
  have htasks (id : MigrationTaskIdType) (hid : id ∈ m'.mClusterSetGlobalInfo.migrationTaskIds) :
      id ∈ m.mClusterSetGlobalInfo.migrationTaskIds := by
    rw [hm'] at hid
    exact mem_of_mem_filter hid
  change Lists _ ⟨m'.mClusterSetGlobalInfo, m'.directory.clusters⟩
  rw [hclusters]
  refine (lists_of_load hload).map KVStore.cells_write_last hids
    (fun id r => if id = target.mClusterId then target.mClusterInfo
      else if id = source.mClusterId then source.mClusterInfo else r) (fun id hid => ?_) fun id hid => ?_
  · obtain ⟨r, hr⟩ := (lists_of_load hload).exists_record hid
    rw [record_write_global, record_write_task, record_write_update sourceWrites htgt htargetRecord,
      ← mClusterId_of_updateInTransaction htgt, hsourceRecord, hr]
    split_ifs <;> rfl
  · rw [task_write_global, task_write_task]
    split_ifs
    · rfl
    · rw [task_write_update sourceWrites htgt, ← nil_append sourceWrites, task_write_update [] hsrc]
      exact (lists_of_load hload).tasks id (htasks id hid)

end Changes

section Add

variable {s : KVStore} {m : ClusterSetManager} {addresses : ClusterAddress}

theorem countHosts_spec {results : List (Option Cell)} {n n' : ℕ} {v v' : Option Value}
    (h : Cluster.countHosts results n v = some (n', v')) :
    (∀ x, v = some x → v' = some x) ∧ ∀ cell, some cell ∈ results → v' = some cell.1 := by
  induction results generalizing n v with
  | nil =>
    cases h
    exact ⟨fun x hx => hx, nofun⟩
  | cons r results ih =>
    match r, v with
    | none, v =>
      obtain ⟨hv, hcells⟩ := ih h
      exact ⟨hv, fun cell hcell => hcells cell (by simpa using hcell)⟩
    | some (value, _), none =>
      obtain ⟨hv, hcells⟩ := ih h
      refine ⟨nofun, fun cell hcell => ?_⟩
      rcases mem_cons.mp hcell with hcell | hcell
      · cases hcell
        exact hv value rfl
      · exact hcells cell hcell
    | some (value, _), some clusterIdStr =>
      simp only [Cluster.countHosts] at h
      split_ifs at h with hne
      obtain ⟨hv, hcells⟩ := ih h
      refine ⟨hv, fun cell hcell => ?_⟩
      rcases mem_cons.mp hcell with hcell | hcell
      · cases hcell
        rw [hv _ rfl, not_not.mp hne]
      · exact hcells cell hcell

theorem sameCluster_known {results : List (Option Cell)} {count : ℕ} {id : ClusterIdType}
    (h : Cluster.sameCluster results = some (.OK, count, id)) {cell : Cell} (hcell : some cell ∈ results) :
    cell.1 = .clusterId id := by
  match hcount : Cluster.countHosts results 0 none with
  | none => simp [Cluster.sameCluster, hcount] at h
  | some (n, none) => exact nomatch (countHosts_spec hcount).2 cell hcell
  | some (n, some value) =>
    obtain rfl : value = cell.1 := Option.some.inj ((countHosts_spec hcount).2 cell hcell)
    simp only [Cluster.sameCluster, hcount] at h
    obtain ⟨id', hstoi, h⟩ := map_eq_some_iff.mp h
    cases h
    match hvalue : cell.1 with
    | .clusterId id' =>
      rw [hvalue, Cluster.stoi] at hstoi
      split_ifs at hstoi
      cases hstoi
      rfl
    | .globalInfo _ => simp [hvalue, Cluster.stoi] at hstoi
    | .clusterInfo _ => simp [hvalue, Cluster.stoi] at hstoi
    | .migrationTask _ => simp [hvalue, Cluster.stoi] at hstoi

theorem cells_write_hosts (id : ClusterIdType) (addresses : ClusterAddress) (key : KeyType) :
    (s.write (Cluster.hostEntries id addresses)).cells key =
      if key ∈ addresses then some (.clusterId id, s.clock + 1) else s.cells key := by
  induction addresses using List.reverseRecOn with
  | nil => rfl
  | append_singleton addresses hostname ih =>
    simp only [Cluster.hostEntries, map_append, map_cons, map_nil,
      KVStore.cells_write_append, mem_append, mem_singleton] at ih ⊢
    rw [ih]
    by_cases hkey : key = hostname <;> simp [hkey]

theorem record_write_hosts (hhosts : ∀ h ∈ addresses, ∀ cell, s.cells h = some cell → ∃ id, cell.1 = .clusterId id)
    (clusterId : ClusterIdType) {id : ClusterIdType} {info : ClusterInfo} (hr : s.record id = some info) :
    (s.write (Cluster.hostEntries clusterId addresses)).record id = some info := by
  have hkey : buildClusterKey id ∉ addresses := by
    intro hmem
    match hcell : s.cells (buildClusterKey id) with
    | none => simp [hcell] at hr
    | some cell =>
      obtain ⟨id', hvalue⟩ := hhosts _ hmem cell hcell
      obtain ⟨value, version⟩ := cell
      subst hvalue
      simp [hcell] at hr
  rw [← hr]
  simp [cells_write_hosts, hkey]

theorem task_write_hosts (hhosts : ∀ h ∈ addresses, ∀ cell, s.cells h = some cell → ∃ id, cell.1 = .clusterId id)
    (clusterId : ClusterIdType) {id : MigrationTaskIdType} (ht : (s.task id).isSome) :
    ((s.write (Cluster.hostEntries clusterId addresses)).task id).isSome := by
  have hkey : buildMigrationTaskKey id ∉ addresses := by
    intro hmem
    match hcell : s.cells (buildMigrationTaskKey id) with
    | none => simp [hcell] at ht
    | some cell =>
      obtain ⟨id', hvalue⟩ := hhosts _ hmem cell hcell
      obtain ⟨value, version⟩ := cell
      subst hvalue
      simp [hcell] at ht
  have hsame : (s.write (Cluster.hostEntries clusterId addresses)).task id = s.task id := by
    simp [cells_write_hosts, hkey]
  rwa [hsame]

theorem planAdd_cases {code : ResponseCode} {count : ℕ} {id : ClusterIdType} {preconds : List Precond}
    {writes : List (KeyType × Value)} (h : m.planAdd addresses code count id = .ok (preconds, writes)) :
    code = .OK ∧ (
      (count = 0 ∧ m.assignNewClusterId ∉ m.mClusterSetGlobalInfo.clusterIds ∧
        preconds = m.fillPrecondition ++
          (.exist (buildClusterKey m.assignNewClusterId) false :: addresses.map (.exist · false)) ∧
        writes = Cluster.hostEntries m.assignNewClusterId addresses ++
          [(buildClusterKey m.assignNewClusterId, .clusterInfo ⟨addresses, .INIT⟩)] ++
          [(KEY_CLUSTER_GLOBAL_INFO, .globalInfo { m.mClusterSetGlobalInfo with
            clusterIds := m.mClusterSetGlobalInfo.clusterIds ++ [m.assignNewClusterId] })]) ∨
      count ≠ 0 ∧ ∃ c, m.findClusterById id = some c ∧
        preconds = m.fillPrecondition ++ [.exist (buildClusterKey c.mClusterId) true] ∧
        writes = Cluster.hostEntries c.mClusterId addresses ++
          [(buildClusterKey c.mClusterId, .clusterInfo ⟨addresses, c.getStatus⟩)] ++
          [(KEY_CLUSTER_GLOBAL_INFO, .globalInfo m.mClusterSetGlobalInfo)]) := by
  unfold planAdd at h
  split_ifs at h with hcode hmigration hcount
  · refine ⟨not_not.mp hcode, .inl ?_⟩
    simp only [planNewCluster, appendNewClusterId] at h
    split_ifs at h with hmem
    cases h
    exact ⟨hcount, hmem, rfl, rfl⟩
  · refine ⟨not_not.mp hcode, .inr ?_⟩
    unfold planUpdate at h
    split at h
    · cases h
    · rename_i c hc
      cases h
      exact ⟨hcount, c, hc, rfl, rfl⟩

theorem lists_create (hload : s.load = some m) (hid : m.assignNewClusterId ∉ m.mClusterSetGlobalInfo.clusterIds)
    (hhosts : ∀ h ∈ addresses, s.cells h = none) :
    Lists (s.write (Cluster.hostEntries m.assignNewClusterId addresses ++
        [(buildClusterKey m.assignNewClusterId, .clusterInfo ⟨addresses, .INIT⟩)] ++
        [(KEY_CLUSTER_GLOBAL_INFO, .globalInfo { m.mClusterSetGlobalInfo with
          clusterIds := m.mClusterSetGlobalInfo.clusterIds ++ [m.assignNewClusterId] })]))
      ⟨{ m.mClusterSetGlobalInfo with
          clusterIds := m.mClusterSetGlobalInfo.clusterIds ++ [m.assignNewClusterId] },
        m.directory.clusters ++ [(m.assignNewClusterId, ⟨addresses, .INIT⟩)]⟩ := by
  have hLists := lists_of_load hload
  have hhosts' : ∀ h ∈ addresses, ∀ cell, s.cells h = some cell → ∃ id, cell.1 = .clusterId id :=
    fun h hh cell hcell => by simp [hhosts h hh] at hcell
  refine ⟨.inr ⟨_, KVStore.cells_write_last⟩, ?_, fun id hid => ?_⟩
  · simp only [map_append, map_cons, map_nil, record_write_global, record_write_record]
    rw [if_pos trivial, ← hLists.records]
    refine congrArg (· ++ _) (map_congr_left fun id hmem => ?_)
    obtain ⟨info, hinfo⟩ := hLists.exists_record hmem
    rw [if_neg fun (h : id = m.assignNewClusterId) => hid (h ▸ hmem), record_write_hosts hhosts' _ hinfo, hinfo]
  · rw [task_write_global, task_write_record]
    exact task_write_hosts hhosts' _ (hLists.tasks id hid)

theorem lists_update (hload : s.load = some m) (c : Cluster)
    (hhosts : ∀ h ∈ addresses, ∀ cell, s.cells h = some cell → ∃ id, cell.1 = .clusterId id) :
    Lists (s.write (Cluster.hostEntries c.mClusterId addresses ++
        [(buildClusterKey c.mClusterId, .clusterInfo ⟨addresses, c.getStatus⟩)] ++
        [(KEY_CLUSTER_GLOBAL_INFO, .globalInfo m.mClusterSetGlobalInfo)]))
      ⟨m.mClusterSetGlobalInfo, m.directory.clusters.map fun p => (p.1,
        if p.1 = c.mClusterId then ⟨addresses, c.getStatus⟩ else p.2)⟩ := by
  have hLists := lists_of_load hload
  refine hLists.map KVStore.cells_write_last rfl
    (fun id r => if id = c.mClusterId then ⟨addresses, c.getStatus⟩ else r) (fun id hmem => ?_) fun id hid => ?_
  · obtain ⟨info, hinfo⟩ := hLists.exists_record hmem
    rw [record_write_global, record_write_record, record_write_hosts hhosts _ hinfo, hinfo]
    split_ifs <;> rfl
  · rw [task_write_global, task_write_record]
    exact task_write_hosts hhosts _ (hLists.tasks id hid)

end Add

end Goblin.ObjectManager
