import Goblin.ObjectManager.RouteVersions

/-! What the records and the host entries of a committed registry say about each other. -/
namespace Goblin.ObjectManager

open Model Lib Lib.Optimistic ClusterSetManager List

namespace KVStore

def clusterIds (s : KVStore) : List ClusterIdType :=
  match s.cells KEY_CLUSTER_GLOBAL_INFO with
  | some (.globalInfo info, _) => info.clusterIds
  | _ => []

def hostKey (s : KVStore) (hostname : String) : Option ClusterIdType :=
  match s.cells hostname with
  | some (.clusterId id, _) => some id
  | _ => none

end KVStore

structure Consistent (s : KVStore) : Prop where
  nodup : s.clusterIds.Nodup
  record_of_id : ∀ id ∈ s.clusterIds, (s.record id).isSome
  disjoint : ∀ c d info info' hostname, s.record c = some info → s.record d = some info' →
    hostname ∈ info.addr → hostname ∈ info'.addr → c = d
  hostKey_iff : ∀ hostname c, s.hostKey hostname = some c ↔
    ∃ info, s.record c = some info ∧ hostname ∈ info.addr

theorem Consistent.of_hostKey {s : KVStore} (hnodup : s.clusterIds.Nodup)
    (hrecord : ∀ id ∈ s.clusterIds, (s.record id).isSome)
    (hhost : ∀ hostname c, s.hostKey hostname = some c ↔
      ∃ info, s.record c = some info ∧ hostname ∈ info.addr) : Consistent s where
  nodup := hnodup
  record_of_id := hrecord
  disjoint c d info info' hostname hc hd hmem hmem' := by
    have h := (hhost hostname c).mpr ⟨info, hc, hmem⟩
    have h' := (hhost hostname d).mpr ⟨info', hd, hmem'⟩
    exact Option.some.inj (h.symm.trans h')
  hostKey_iff := hhost

namespace Manager

/-- A known cluster keeps its hosts, and the hosts of a new one are not the keys that are written with
them. Other requests than `addCluster` and `startCluster` are left out. -/
def KeepsHosts : Request → KVStore → Prop
  | .addCluster addresses, s =>
    (∀ x ∈ found s addresses, x.2.getServerAddresses ⊆ addresses) ∧
      (found s addresses = none → KEY_CLUSTER_GLOBAL_INFO ∉ addresses ∧
        ∀ m ∈ s.load, buildClusterKey m.assignNewClusterId ∉ addresses)
  | .onStartup _, _ => True
  | _, _ => False

instance : ∀ r s, Decidable (KeepsHosts r s)
  | .addCluster addresses, s =>
    inferInstanceAs (Decidable ((∀ x ∈ found s addresses, _) ∧ (found s addresses = none → _)))
  | .onStartup _, _ => isTrue trivial
  | .onMigration _ _, _ => isFalse id
  | .router, _ => isFalse id

end Manager

attribute [local simp] KVStore.hostKey

section Write

variable {s : KVStore} {m : ClusterSetManager} {addresses : ClusterAddress} {id : ClusterIdType}
  {info : ClusterInfo} {global : ClusterSetGlobalInfo}

/-- The entries of a new or changed cluster. -/
def addEntries (id : ClusterIdType) (addresses : ClusterAddress) (info : ClusterInfo)
    (global : ClusterSetGlobalInfo) : List (KeyType × Value) :=
  Cluster.hostEntries id addresses ++ [(buildClusterKey id, .clusterInfo info)] ++
    [(KEY_CLUSTER_GLOBAL_INFO, .globalInfo global)]

theorem cells_add (key : KeyType) : (s.write (addEntries id addresses info global)).cells key =
    if key = KEY_CLUSTER_GLOBAL_INFO then some (.globalInfo global, s.clock + 1)
    else if key = buildClusterKey id then some (.clusterInfo info, s.clock + 1)
    else if key ∈ addresses then some (.clusterId id, s.clock + 1) else s.cells key := by
  rw [addEntries, KVStore.cells_write_append, KVStore.cells_write_append, cells_write_hosts]

theorem clusterIds_write_global (writes : List (KeyType × Value)) :
    (s.write (writes ++ [(KEY_CLUSTER_GLOBAL_INFO, .globalInfo global)])).clusterIds = global.clusterIds := by
  simp [KVStore.clusterIds, KVStore.cells_write_last]

theorem clusterIds_of_load (hload : s.load = some m) : s.clusterIds = m.mClusterSetGlobalInfo.clusterIds := by
  obtain ⟨hglobal, rfl⟩ | ⟨hglobal, -, -⟩ := load_cases hload <;> simp [KVStore.clusterIds, hglobal]

theorem record_add
    (hhosts : ∀ h ∈ addresses, ∀ cell, s.cells h = some cell → ∃ id, cell.1 = .clusterId id)
    (d : ClusterIdType) : (s.write (addEntries id addresses info global)).record d =
      if d = id then some info else s.record d := by
  rw [addEntries, record_write_global, record_write_record]
  split_ifs
  · rfl
  · cases hr : s.record d with
    | some r => exact record_write_hosts hhosts id hr
    | none =>
      by_cases hkey : buildClusterKey d ∈ addresses
      · simp [KVStore.record, cells_write_hosts, hkey]
      · simpa [KVStore.record, cells_write_hosts, hkey] using hr

theorem hostKey_add (hglobal : KEY_CLUSTER_GLOBAL_INFO ∉ addresses) (hkey : buildClusterKey id ∉ addresses)
    (hglobal' : s.hostKey KEY_CLUSTER_GLOBAL_INFO = none) (hkey' : s.hostKey (buildClusterKey id) = none)
    (hostname : String) : (s.write (addEntries id addresses info global)).hostKey hostname =
      if hostname ∈ addresses then some id else s.hostKey hostname := by
  by_cases h₁ : hostname = KEY_CLUSTER_GLOBAL_INFO
  · subst h₁
    rw [if_neg hglobal, hglobal']
    simp [cells_add]
  · by_cases h₂ : hostname = buildClusterKey id
    · subst h₂
      rw [if_neg hkey, hkey']
      simp [cells_add]
    · by_cases h₃ : hostname ∈ addresses <;> simp [cells_add, h₁, h₂, h₃]

theorem hostKey_global (hload : s.load = some m) : s.hostKey KEY_CLUSTER_GLOBAL_INFO = none := by
  obtain ⟨hglobal, rfl⟩ | ⟨hglobal, -, -⟩ := load_cases hload <;> simp [hglobal]

theorem cell_of_record (hr : s.record id = some info) :
    ∃ version, s.cells (buildClusterKey id) = some (.clusterInfo info, version) := by
  unfold KVStore.record at hr
  split at hr
  · rename_i hcell
    cases hr
    exact ⟨_, hcell⟩
  · cases hr

theorem hostKey_of_record (hr : s.record id = some info) : s.hostKey (buildClusterKey id) = none := by
  obtain ⟨version, hcell⟩ := cell_of_record hr
  simp [hcell]

end Write

section Commit

variable {s s' : KVStore} {m : ClusterSetManager} {addresses : ClusterAddress}

theorem cell_of_hostKey {hostname : String} {c : ClusterIdType} (h : s.hostKey hostname = some c) :
    ∃ version, s.cells hostname = some (.clusterId c, version) := by
  unfold KVStore.hostKey at h
  split at h
  · rename_i hcell
    cases h
    exact ⟨_, hcell⟩
  · cases h

theorem Consistent.add (h : Consistent s) {id : ClusterIdType} {status : ClusterStatus}
    {global : ClusterSetGlobalInfo}
    (hhosts : ∀ h ∈ addresses, ∀ cell, s.cells h = some cell → cell.1 = .clusterId id)
    (hglobal : KEY_CLUSTER_GLOBAL_INFO ∉ addresses) (hkey : buildClusterKey id ∉ addresses)
    (hglobal' : s.hostKey KEY_CLUSTER_GLOBAL_INFO = none) (hkey' : s.hostKey (buildClusterKey id) = none)
    (hkeeps : ∀ r, s.record id = some r → r.addr ⊆ addresses) (hnodup : global.clusterIds.Nodup)
    (hids : ∀ d ∈ global.clusterIds, d = id ∨ d ∈ s.clusterIds) :
    Consistent (s.write (addEntries id addresses ⟨addresses, status⟩ global)) := by
  have hrecord (d : ClusterIdType) : (s.write (addEntries id addresses ⟨addresses, status⟩ global)).record d =
      if d = id then some ⟨addresses, status⟩ else s.record d :=
    record_add (fun h hh cell hcell => ⟨id, hhosts h hh cell hcell⟩) d
  refine .of_hostKey ?_ ?_ ?_
  · rwa [addEntries, clusterIds_write_global]
  · intro d hd
    rw [addEntries, clusterIds_write_global] at hd
    rw [hrecord]
    split_ifs with hid
    · rfl
    · exact h.record_of_id d ((hids d hd).resolve_left hid)
  · intro hostname c
    rw [hostKey_add hglobal hkey hglobal' hkey', hrecord]
    constructor
    · intro hhost
      split_ifs at hhost with hmem
      · cases hhost
        exact ⟨_, if_pos rfl, hmem⟩
      · obtain ⟨r, hr, hr'⟩ := (h.hostKey_iff hostname c).mp hhost
        have hc : c ≠ id := by
          rintro rfl
          exact hmem (hkeeps r hr hr')
        exact ⟨r, by rw [if_neg hc, hr], hr'⟩
    · rintro ⟨r, hr, hr'⟩
      split_ifs at hr with hc
      · cases hr
        rw [if_pos hr', hc]
      · have hhost := (h.hostKey_iff hostname c).mpr ⟨r, hr, hr'⟩
        obtain ⟨version, hcell⟩ := cell_of_hostKey hhost
        have hmem : hostname ∉ addresses := fun hmem =>
          hc (Value.clusterId.inj (hhosts hostname hmem _ hcell))
        rw [if_neg hmem, hhost]

theorem hostKey_write_update {c c' : Cluster} {newStatus : ClusterStatus} {entries : List (KeyType × Value)}
    (h : c.updateInTransaction newStatus = (entries, c'))
    (hc : s.hostKey (buildClusterKey c.mClusterId) = none) (hostname : String) :
    (s.write entries).hostKey hostname = s.hostKey hostname := by
  unfold Cluster.updateInTransaction at h
  split_ifs at h
  · cases h
    rfl
  · cases h
    change (s.write [(buildClusterKey c.mClusterId, _)]).hostKey hostname = _
    by_cases hkey : hostname = buildClusterKey c.mClusterId
    · rw [hkey, hc]
      simp [KVStore.cells_write_singleton]
    · simp [KVStore.cells_write_singleton, hkey]

theorem Consistent.setStatus (h : Consistent s) (hload : s.load = some m) {c c' : Cluster}
    (hc : c ∈ m.mClusterVector) {newStatus : ClusterStatus} {entries : List (KeyType × Value)}
    (hupdate : c.updateInTransaction newStatus = (entries, c')) {global : ClusterSetGlobalInfo}
    (hids : global.clusterIds = m.mClusterSetGlobalInfo.clusterIds) :
    Consistent (s.write (entries ++ [(KEY_CLUSTER_GLOBAL_INFO, .globalInfo global)])) := by
  have hclusterIds : (s.write (entries ++ [(KEY_CLUSTER_GLOBAL_INFO, .globalInfo global)])).clusterIds =
      s.clusterIds := by
    rw [clusterIds_write_global, hids, clusterIds_of_load hload]
  have haddr : c'.mClusterInfo.addr = c.mClusterInfo.addr := by
    unfold Cluster.updateInTransaction at hupdate
    split_ifs at hupdate <;> cases hupdate <;> rfl
  have hrecord (d : ClusterIdType) :
      (s.write (entries ++ [(KEY_CLUSTER_GLOBAL_INFO, .globalInfo global)])).record d =
        if d = c.mClusterId then some c'.mClusterInfo else s.record d := by
    rw [record_write_global, ← nil_append entries]
    exact record_write_update [] hupdate (record_of_mem hload hc)
  -- no host entry is written
  have hhostKey (hostname : String) :
      (s.write (entries ++ [(KEY_CLUSTER_GLOBAL_INFO, .globalInfo global)])).hostKey hostname =
        s.hostKey hostname := by
    by_cases hglobal : hostname = KEY_CLUSTER_GLOBAL_INFO
    · rw [hglobal, hostKey_global hload]
      simp [KVStore.cells_write_last]
    · have hentries := hostKey_write_update hupdate (hostKey_of_record (record_of_mem hload hc)) hostname
      simpa [KVStore.cells_write_append, hglobal] using hentries
  refine .of_hostKey (hclusterIds ▸ h.nodup) (fun d hd => ?_) fun hostname d => ?_
  · rw [hrecord]
    split_ifs
    · rfl
    · exact h.record_of_id d (hclusterIds ▸ hd)
  · rw [hhostKey, h.hostKey_iff, hrecord]
    split_ifs with hd
    · subst hd
      simp [record_of_mem hload hc, haddr]
    · rfl

theorem Commits.consistent {r : Request} (h : Commits s r s') (hs : Consistent s)
    (hkeeps : Manager.KeepsHosts r s) : Consistent s' := by
  cases h with
  | @add m addresses code count id preconds writes hload hsame hplan hpreconds =>
    obtain ⟨rfl, ⟨hcount, hid, rfl, rfl⟩ | ⟨hcount, c, hc, rfl, rfl⟩⟩ := planAdd_cases hplan
    · have hnew (p : Precond) (hp : p ∈ _) := all_eq_true.mp hpreconds p (mem_append_right _ hp)
      have hrecord := cells_of_exist (hnew _ mem_cons_self)
      have hhosts : ∀ h ∈ addresses, s.cells h = none := fun h hh =>
        cells_of_exist (hnew _ (mem_cons_of_mem _ (mem_map_of_mem hh)))
      have hfound : Manager.found s addresses = none := by
        simp [Manager.found, hload, hsame, hcount]
      obtain ⟨hglobal, hkey⟩ := hkeeps.2 hfound
      refine hs.add (fun h hh cell hcell => by simp [hhosts h hh] at hcell) hglobal (hkey m hload)
        (hostKey_global hload) (by simp [hrecord]) (by simp [KVStore.record, hrecord]) ?_ ?_
      · have hnodup : m.mClusterSetGlobalInfo.clusterIds.Nodup := clusterIds_of_load hload ▸ hs.nodup
        rw [← concat_eq_append]
        exact hnodup.concat hid
      · intro d hd
        rw [clusterIds_of_load hload]
        exact (mem_append.mp hd).symm.imp_left mem_singleton.mp
    · have hmem := (findClusterById_spec hload hc).1
      have hrecord := record_of_mem hload hmem
      obtain rfl := (findClusterById_spec hload hc).2
      have hhosts : ∀ h ∈ addresses, ∀ cell, s.cells h = some cell → cell.1 = .clusterId c.mClusterId :=
        fun h hh cell hcell => sameCluster_known hsame (hcell ▸ mem_map_of_mem hh)
      refine hs.add hhosts ?_ ?_ (hostKey_global hload) (hostKey_of_record hrecord) ?_ ?_ ?_
      · intro hh
        obtain ⟨-, rfl⟩ | ⟨hglobal, -, -⟩ := load_cases hload
        · cases hmem
        · cases hhosts _ hh _ hglobal
      · intro hh
        obtain ⟨version, hcell⟩ := cell_of_record hrecord
        cases hhosts _ hh _ hcell
      · intro r hr
        obtain rfl := Option.some.inj (hr.symm.trans hrecord)
        exact hkeeps.1 _ (found_eq hload hsame hcount hc)
      · exact clusterIds_of_load hload ▸ hs.nodup
      · exact fun d hd => .inr (clusterIds_of_load hload ▸ hd)
  | start hload hsame hcount hc hstatus hone | onboard hload hsame hcount hc hstatus hone hmigration =>
    exact hs.setStatus hload (findClusterById_spec hload hc).1 rfl rfl
  | migrated hload hplan => exact hkeeps.elim

end Commit

namespace Manager

theorem consistent_empty : Consistent {} :=
  .of_hostKey nodup_nil nofun fun hostname c => by simp [KVStore.record]

/-- However requests interleave, the registry stays consistent as long as clusters keep their hosts. -/
theorem registry_consistent (cfg : RingConfig) {s : KVStore} (hs : Consistent s) {as : List (Act Request ℕ)}
    {p : Manager}
    (hG : Meets (step cfg) (Pool.Admits KVStore.answer KVStore.stamp KeepsHosts) { store := s } as)
    (hp : exec (step cfg) { store := s } as = some p) : ∀ s' ∈ p.stores, Consistent s' :=
  Pool.forall_stores (begins_program cfg) (fun _ _ _ hs hkeeps hcommit => hcommit.consistent hs hkeeps) hs hG hp

/-- Two clusters are added at the same time, and the one that comes through grows. -/
def grown : List (Act Request ℕ) :=
  [.begin 0 (.addCluster ["a", "b"]), .begin 1 (.addCluster ["c"]), .step 0, .step 1, .step 0, .step 1, .step 0,
    .step 0, .step 1, .begin 2 (.addCluster ["a", "b", "d"]), .step 2, .step 2, .step 2, .step 2, .step 2, .step 2]

theorem grown_consistent : ∃ p : Manager, exec (step twoNodes) { store := {} } grown = some p ∧
    p.store.clusterIds = [1] ∧ (p.store.record 1).map ClusterInfo.addr = some ["a", "b", "d"] ∧
    Consistent {} ∧ ∀ s' ∈ p.stores, Consistent s' := by
  have hp : exec (step twoNodes) { store := {} } grown = some _ := rfl
  exact ⟨_, hp, rfl, rfl, consistent_empty, registry_consistent twoNodes consistent_empty (by decide +kernel) hp⟩

/-- A cluster of two hosts is added again with one of them. -/
def shrunk : List (Act Request ℕ) :=
  [.begin 0 (.addCluster ["a", "b"]), .step 0, .step 0, .step 0, .step 0,
    .begin 1 (.addCluster ["a"]), .step 1, .step 1, .step 1, .step 1]

theorem shrunk_keeps_host : ∃ p : Manager, exec (step twoNodes) { store := {} } shrunk = some p ∧
    p.store.hostKey "b" = some 1 ∧ (p.store.record 1).map ClusterInfo.addr = some ["a"] :=
  exists_exec_of_any (by decide +kernel)

end Manager

end Goblin.ObjectManager
