import Goblin.ObjectManager.RouteVersions
import Goblin.ObjectStore.PreExecute

/-! A server that becomes leader reports its cluster to the object manager and checks routes by the answer.
Its own cluster has to be in the route info under the very address list that it has reported. -/
namespace Goblin.ObjectManager

open Model Lib ClusterSetManager List Option

section Ring

variable {cfg : RingConfig} {m : ClusterSetManager}

theorem foldlM_addClusterId_entries {clusters : List Cluster} {ring out : HashRing}
    (h : clusters.foldlM (fun (ring : HashRing) c => (ring.addClusterId cfg c.mClusterId).map Prod.fst) ring =
      some out) :
    (∀ e ∈ ring.entries, e ∈ out.entries) ∧ ∀ c ∈ clusters, ∃ e ∈ out.entries, e.2 = c.mClusterId := by
  induction clusters generalizing ring with
  | nil =>
    cases h
    exact ⟨fun e he => he, nofun⟩
  | cons c clusters ih =>
    rw [foldlM_cons] at h
    obtain ⟨ring₁, h₁, h₂⟩ := bind_eq_some_iff.mp h
    obtain ⟨added, hadded, rfl⟩ := map_eq_some_iff.mp h₁
    obtain ⟨hkept, e, he, hid⟩ := HashRing.addClusterId_entries hadded
    obtain ⟨hrest, hall⟩ := ih h₂
    refine ⟨fun e he => hrest e (hkept e he), forall_mem_cons.mpr ⟨⟨e, hrest e he, hid⟩, hall⟩⟩

/-- The clusters in a route info are those that serve, and each has a shard. -/
theorem assigns_fillRouteInfo {info : RouteInfo} (h : m.fillRouteInfo cfg = some info)
    (cluster : ClusterAddressFormat) :
    (∃ s, info.Assigns cluster s) ↔
      ∃ c ∈ m.getRoutingCluster, clusterToAddressFormat c.getServerAddresses = cluster := by
  obtain ⟨ring, hring, h⟩ := bind_eq_some_iff.mp h
  cases h
  constructor
  · rintro ⟨s, e, he, hcluster, -⟩
    obtain ⟨c, hc, rfl⟩ := mem_map.mp he
    exact ⟨c, hc, hcluster⟩
  · rintro ⟨c, hc, hcluster⟩
    obtain ⟨e, he, hid⟩ := (foldlM_addClusterId_entries hring).2 c hc
    refine ⟨e.1, _, mem_map.mpr ⟨c, hc, rfl⟩, hcluster, ?_⟩
    exact hid ▸ HashRing.mem_extractShardConfig he

end Ring

section Start

variable {cfg : RingConfig} {s s' : KVStore} {m : ClusterSetManager} {c : Cluster} {a : Answer}
  {addresses : ClusterAddress}

theorem found_spec (h : Manager.found s addresses = some (m, c)) : s.load = some m ∧ c ∈ m.mClusterVector := by
  obtain ⟨m₀, hload, h⟩ := bind_eq_some_iff.mp h
  obtain ⟨⟨_, count, id⟩, -, h⟩ := bind_eq_some_iff.mp h
  obtain ⟨c₀, hc, h⟩ := bind_eq_some_iff.mp h
  split_ifs at h
  cases h
  exact ⟨hload, (findClusterById_spec hload hc).1⟩

theorem run_onStartup (hrun : ((Request.onStartup addresses).program cfg).run KVStore.answer s = some (a, s'))
    (hok : a.header.code = .OK) : ∃ m c header, Manager.found s addresses = some (m, c) ∧
      header.code = .OK ∧ (m.startFound cfg header c).run KVStore.answer s = some (a, s') := by
  simp only [Request.program] at hrun
  split_ifs at hrun with hne
  · cases hrun
    cases hok
  · obtain ⟨⟨header, m⟩, t, hinit, hstart⟩ := Program.run_bind_eq_some.mp hrun
    obtain ⟨rfl, -, hload⟩ := (reads_initFrom s).run hinit
    dsimp only at hstart
    split_ifs at hstart with hheader
    · cases hstart
      exact absurd hok hheader
    · obtain ⟨⟨code, count, id⟩, t', hsame, hrest⟩ := Program.run_bind_eq_some.mp hstart
      obtain ⟨rfl, -, hsame⟩ := (reads_isAddressInSameCluster t addresses).run hsame
      dsimp only at hrest
      split_ifs at hrest with hcode hbad
      · cases hrest
        exact absurd hok hcode
      · cases hrest
        cases hok
      · cases hc : m.findClusterById id with
        | none =>
          simp only [hc] at hrest
          cases hrest
          cases hok
        | some c =>
          simp only [hc] at hrest
          refine ⟨m, c, header, ?_, not_not.mp hheader, hrest⟩
          have hcount : count ≠ 0 := by
            rintro rfl
            exact hbad (.inl (length_pos_iff.mpr hne))
          simp [Manager.found, hload (not_not.mp hheader), hsame rfl, hc, hcount]

/-- The route info is filled unless the cluster waits for a migration to end, and a cluster that starts
is in it. -/
theorem startFound_answers {header : ResponseHeader}
    (hrun : (m.startFound cfg header c).run KVStore.answer s = some (a, s')) (hok : a.header.code = .OK)
    (hservice : a.status ≠ .OUT_OF_SERVICE) :
    a.routeInfo = none ∧ c.getStatus = .INIT ∧ ¬ (m.isOnlyOneCluster ∨ ¬ m.hasMigrationTask) ∨
      ∃ (m' : ClusterSetManager) (info : RouteInfo), a.routeInfo = some info ∧ m'.fillRouteInfo cfg = some info ∧
        (c.getStatus ≠ .INIT ∧ m'.mClusterVector = m.mClusterVector ∨
          c.getStatus = .INIT ∧ (m.isOnlyOneCluster ∨ ¬ m.hasMigrationTask) ∧
            m'.mClusterVector = (m.setCluster (c.setStatus .IN_SERVICE)).mClusterVector) := by
  have hINIT : c.getStatus = .INIT → c.updateInTransaction .IN_SERVICE =
      ([(buildClusterKey c.mClusterId, .clusterInfo (c.setStatus .IN_SERVICE).mClusterInfo)],
        c.setStatus .IN_SERVICE) := by
    intro hstatus
    simp [Cluster.updateInTransaction, hstatus, Cluster.setStatus]
  unfold startFound at hrun
  cases hstatus : c.getStatus with
  | OUT_OF_SERVICE =>
    simp only [hstatus] at hrun
    cases hrun
    exact absurd rfl hservice
  | IN_SERVICE =>
    simp only [hstatus] at hrun
    obtain ⟨info, t, hinfo, hrun⟩ := Program.run_bind_eq_some.mp hrun
    cases hrun
    exact .inr ⟨m, info, rfl, ((reads_orAbort _).run hinfo).2.2, .inl ⟨nofun, rfl⟩⟩
  | IMPORTING | EXPORTING =>
    simp only [hstatus] at hrun
    obtain ⟨out, t, hout, hrun⟩ := Program.run_bind_eq_some.mp hrun
    cases hrun
    exact .inr ⟨m, out.1, rfl, fillRouteAndMigrationInfo_fst ((reads_orAbort _).run hout).2.2,
      .inl ⟨nofun, rfl⟩⟩
  | INIT =>
    simp only [hstatus] at hrun
    split_ifs at hrun with hone hmigration
    · simp only [startOnlyCluster, hINIT hstatus] at hrun
      obtain ⟨header, t, -, hrun⟩ := Program.run_bind_eq_some.mp hrun
      split_ifs at hrun with hcode
      · cases hrun
        exact absurd hok hcode
      · obtain ⟨info, t', hinfo, hrun⟩ := Program.run_bind_eq_some.mp hrun
        cases hrun
        exact .inr ⟨_, info, rfl, ((reads_orAbort _).run hinfo).2.2, .inr ⟨rfl, .inl hone, rfl⟩⟩
    · cases hrun
      exact .inl ⟨rfl, rfl, by simp [hone, hmigration]⟩
    · simp only [onboardCluster, hINIT hstatus] at hrun
      obtain ⟨_, t, -, hrun⟩ := Program.run_bind_eq_some.mp hrun
      obtain ⟨header, t', -, hrun⟩ := Program.run_bind_eq_some.mp hrun
      split_ifs at hrun with hcode
      · cases hrun
        exact absurd hok hcode
      · obtain ⟨out, t'', hout, hrun⟩ := Program.run_bind_eq_some.mp hrun
        cases hrun
        exact .inr ⟨_, out.1, rfl, fillRouteAndMigrationInfo_fst ((reads_orAbort _).run hout).2.2,
          .inr ⟨rfl, .inr hmigration, rfl⟩⟩

theorem exists_routing_setCluster (hload : s.load = some m) (hc : c ∈ m.mClusterVector)
    (cluster : ClusterAddressFormat) :
    (∃ d ∈ (m.setCluster (c.setStatus .IN_SERVICE)).getRoutingCluster,
        clusterToAddressFormat d.getServerAddresses = cluster) ↔
      ∃ d ∈ m.mClusterVector, (d.getStatus = .EXPORTING ∨ d.getStatus = .IN_SERVICE ∨
        d.mClusterId = c.mClusterId) ∧ clusterToAddressFormat d.getServerAddresses = cluster := by
  have haddr {d : Cluster} (hd : d ∈ m.mClusterVector) (hid : d.mClusterId = c.mClusterId) :
      d.getServerAddresses = c.getServerAddresses := by
    have hrecord := (record_of_mem hload hd).symm.trans ((congrArg s.record hid).trans (record_of_mem hload hc))
    exact congrArg ClusterInfo.addr (Option.some.inj hrecord)
  simp only [getRoutingCluster, setCluster, List.mem_filter, List.mem_map, decide_eq_true_eq]
  constructor
  · rintro ⟨_, ⟨⟨d, hd, rfl⟩, hserves⟩, hcluster⟩
    by_cases hid : d.mClusterId = c.mClusterId
    · refine ⟨d, hd, .inr (.inr hid), ?_⟩
      rw [if_pos (show d.mClusterId = (c.setStatus .IN_SERVICE).mClusterId from hid)] at hcluster
      rwa [haddr hd hid]
    · have hne : d.mClusterId ≠ (c.setStatus .IN_SERVICE).mClusterId := hid
      simp only [if_neg hne] at hserves hcluster
      exact ⟨d, hd, hserves.imp_right .inl, hcluster⟩
  · rintro ⟨d, hd, hserves, hcluster⟩
    by_cases hid : d.mClusterId = c.mClusterId
    · refine ⟨c.setStatus .IN_SERVICE, ⟨⟨d, hd, if_pos hid⟩, .inr rfl⟩, ?_⟩
      rwa [haddr hd hid] at hcluster
    · refine ⟨d, ⟨⟨d, hd, if_neg hid⟩, ?_⟩, hcluster⟩
      exact hserves.imp_right fun h => h.resolve_right hid

/-- A startup is answered with a route info, and a cluster that serves by then is registered with the
address list that is reported. -/
def Listed (s : KVStore) (addresses : ClusterAddress) : Prop :=
  ∃ x ∈ Manager.found s addresses,
    (x.2.getStatus = .INIT → x.1.isOnlyOneCluster ∨ ¬ x.1.hasMigrationTask) ∧
    ∃ d ∈ x.1.mClusterVector, (d.getStatus = .EXPORTING ∨ d.getStatus = .IN_SERVICE ∨
      x.2.getStatus = .INIT ∧ d.mClusterId = x.2.mClusterId) ∧
        clusterToAddressFormat d.getServerAddresses = clusterToAddressFormat addresses

instance (s : KVStore) (addresses : ClusterAddress) : Decidable (Listed s addresses) :=
  inferInstanceAs (Decidable (∃ x ∈ Manager.found s addresses, _ ∧ ∃ d ∈ x.1.mClusterVector, _ ∧ _))

theorem assigns_iff_listed
    (hrun : ((Request.onStartup addresses).program cfg).run KVStore.answer s = some (a, s'))
    (hok : a.header.code = .OK) (hservice : a.status ≠ .OUT_OF_SERVICE) :
    (∃ shard, (a.routeInfo.getD {}).Assigns (clusterToAddressFormat addresses) shard) ↔
      Listed s addresses := by
  obtain ⟨m, c, header, hfound, -, hstart⟩ := run_onStartup hrun hok
  obtain ⟨hload, hmem⟩ := found_spec hfound
  simp only [Listed, hfound, mem_some_iff, exists_eq_left']
  obtain ⟨hnone, hstatus, hwaits⟩ | ⟨m', info, hinfo, hfill, hvector⟩ :=
    startFound_answers hstart hok hservice
  · constructor
    · rintro ⟨shard, e, he, -⟩
      simp [hnone] at he
    · rintro ⟨hfilled, -⟩
      exact absurd (hfilled hstatus) hwaits
  · rw [hinfo, getD_some, assigns_fillRouteInfo hfill, getRoutingCluster]
    obtain ⟨hstatus, hvector⟩ | ⟨hstatus, hfilled, hvector⟩ := hvector
    · rw [hvector]
      simp [hstatus, and_assoc]
    · rw [hvector]
      simp only [hstatus, hfilled, true_and, true_implies]
      exact exists_routing_setCluster hload hmem _

theorem strategy_onStartup
    (hrun : ((Request.onStartup addresses).program cfg).run KVStore.answer s = some (a, s'))
    (hok : a.header.code = .OK) (hservice : a.status ≠ .OUT_OF_SERVICE) :
    (a.routeInfo.getD {}).strategy = .HASH_MOD := by
  obtain ⟨m, c, header, -, -, hstart⟩ := run_onStartup hrun hok
  obtain ⟨hnone, -⟩ | ⟨m', info, hinfo, hfill, -⟩ := startFound_answers hstart hok hservice
  · rw [hnone]
    rfl
  · obtain ⟨ring, -, h⟩ := bind_eq_some_iff.mp hfill
    cases h
    rw [hinfo]
    rfl

end Start

end Goblin.ObjectManager

namespace Goblin.ObjectStore

open Model Lib ObjectManager List Option

/-- `none` where `becomeLeaderCallBack` reports once more. -/
def GlobalInfo.becomeLeader (g : GlobalInfo) (addresses : ClusterAddress) (resp : Answer) :
    Option GlobalInfo :=
  if resp.header.code ≠ .OK then none
  else some (g.update (.onStartup addresses resp.status (resp.routeInfo.getD {}) resp.migrationTask))

section Server

variable {cfg : RingConfig} {s s' : KVStore} {addresses : ClusterAddress} {a : Answer} {g g' : GlobalInfo}

/-- The placement in use gives every key of the request to the server's cluster. -/
def Info.Owns (info : Info) (keys : List KeyType) : Prop :=
  ∀ key ∈ keys, info.mRouteInfoHelper.mRouteInfo.Assigns info.mMyClusterAddrFormat (targetShard keys key)

/-- For a server that has started, a request with its route version is checked without an exception and is
accepted if the keys belong to the cluster, exactly if the cluster is listed under the reported addresses
and no such key was moved away. -/
theorem preExecuteCallBack_total_iff
    (hrun : ((Request.onStartup addresses).program cfg).run KVStore.answer s = some (a, s'))
    (hleader : g.becomeLeader addresses a = some g') (hservice : a.status ≠ .OUT_OF_SERVICE)
    (st : Stores) (keys : List KeyType) :
    (∃ status, (g'.cached.preExecuteCallBack g'.cached.mRouteInfoHelper.getRouteVersion keys).run
        Stores.answer st = some (status, st) ∧ (g'.cached.Owns keys → status.isOK = true)) ↔
      (keys = [] ∨ Listed s addresses ∨
          (g.cached.mRouteInfoHelper.mCluster2ShardIds (clusterToAddressFormat addresses)).isSome) ∧
        (g'.cached.Owns keys → ∀ key ∈ keys, ¬ g'.cached.Redirects st key (targetShard keys key)) := by
  have hok : a.header.code = .OK := by
    by_contra hcode
    simp [GlobalInfo.becomeLeader, hcode] at hleader
  obtain rfl : g.update (.onStartup addresses a.status (a.routeInfo.getD {}) a.migrationTask) = g' := by
    simpa [GlobalInfo.becomeLeader, hok] using hleader
  set info := (g.update (.onStartup addresses a.status (a.routeInfo.getD {}) a.migrationTask)).cached
  have hcheck : info.preExecuteCallBack info.mRouteInfoHelper.getRouteVersion keys =
      info.checkKeys (targetShard keys) keys := by
    have hstatus : info.mStatus ≠ .OUT_OF_SERVICE := hservice
    have hstrategy : info.mRouteInfoHelper.getPartionStrategy = .HASH_MOD := strategy_onStartup hrun hok hservice
    simp [Info.preExecuteCallBack, hstatus, hstrategy]
  have hknown : info.Known ↔ Listed s addresses ∨
      (g.cached.mRouteInfoHelper.mCluster2ShardIds (clusterToAddressFormat addresses)).isSome := by
    rw [← assigns_iff_listed hrun hok hservice]
    exact g.cached.mRouteInfoHelper.isSome_updateRouteInfo (a.routeInfo.getD {})
  have hscope (howns : info.Owns keys) : ∀ key ∈ keys,
      info.mRouteInfoHelper.checkIfInClusterScope info.mMyClusterAddrFormat (targetShard keys key) =
        some true := fun key hkey =>
    (RouteInfoHelper.checkIfInClusterScope_updateRouteInfo _ _).mpr (.inl (howns key hkey))
  rw [hcheck, ← hknown]
  by_cases hk : info.Known
  · obtain ⟨status, hstatus, -, haccepts⟩ :=
      Info.run_checkKeys hk st (targetShard keys) keys
    constructor
    · rintro ⟨status', hstatus', howned⟩
      obtain rfl : status = status' := by
        rw [hstatus] at hstatus'
        cases hstatus'
        rfl
      exact ⟨.inr hk, fun howns => (haccepts (hscope howns)).mp (howned howns)⟩
    · rintro ⟨-, hstays⟩
      exact ⟨status, hstatus, fun howns => (haccepts (hscope howns)).mpr (hstays howns)⟩
  · by_cases hkeys : keys = []
    · subst hkeys
      simp [Info.checkKeys]
    · simp [Info.run_checkKeys_unknown hk hkeys, hkeys, hk]

end Server

/-- What `addCluster` leaves of a cluster of two hosts. -/
def twoHosts : KVStore :=
  KVStore.write {} (Cluster.hostEntries 1 ["a", "b"] ++ [(buildClusterKey 1, .clusterInfo ⟨["a", "b"], .INIT⟩)] ++
    [(KEY_CLUSTER_GLOBAL_INFO, .globalInfo { clusterIds := [1] })])

/-- The answer to the startup of a new server, and what the server makes of it. -/
def startedWith (addresses : ClusterAddress) : Option ((Answer × KVStore) × GlobalInfo) :=
  (((Request.onStartup addresses).program Manager.twoNodes).run KVStore.answer twoHosts).bind fun x =>
    (GlobalInfo.becomeLeader {} addresses x.1).map fun g' => (x, g')

theorem twoHosts_checks : ∃ a s' g', startedWith ["a", "b"] = some ((a, s'), g') ∧
    a.status = .IN_SERVICE ∧ ∃ status, (g'.cached.preExecuteCallBack
      g'.cached.mRouteInfoHelper.getRouteVersion ["k"]).run Stores.answer {} = some (status, {}) ∧
        (g'.cached.Owns ["k"] → status.isOK = true) := by
  have hstarted : (startedWith ["a", "b"]).any
      (fun x => x.1.1.status = .IN_SERVICE ∧ x.2.cached.mStatus = .IN_SERVICE) = true := by decide +kernel
  obtain ⟨⟨⟨a, s'⟩, g'⟩, hx, hstatus⟩ := (any_eq_true _ _).mp hstarted
  obtain ⟨hservice, hserver⟩ := of_decide_eq_true hstatus
  obtain ⟨x, hrun, h⟩ := bind_eq_some_iff.mp hx
  obtain ⟨g₀, hleader, h⟩ := map_eq_some_iff.mp h
  cases h
  refine ⟨a, s', g', hx, hservice, (preExecuteCallBack_total_iff hrun hleader ?_ {} ["k"]).mpr ⟨?_, ?_⟩⟩
  · rw [hservice]
    decide
  · exact .inr (.inl (by decide +kernel))
  · intro _ key _ hredirects
    rw [Info.Redirects, hserver] at hredirects
    cases hredirects.1

theorem twoHosts_reversed_throws : ∃ a s' g', startedWith ["b", "a"] = some ((a, s'), g') ∧
    a.status = .IN_SERVICE ∧ (g'.cached.preExecuteCallBack
      g'.cached.mRouteInfoHelper.getRouteVersion ["k"]).run Stores.answer {} = none := by
  have hstarted : (startedWith ["b", "a"]).any
      (fun x => x.1.1.status = .IN_SERVICE ∧ ((x.2.cached.preExecuteCallBack
        x.2.cached.mRouteInfoHelper.getRouteVersion ["k"]).run Stores.answer {}).isNone) = true := by
    decide +kernel
  obtain ⟨⟨⟨a, s'⟩, g'⟩, hx, hstatus⟩ := (any_eq_true _ _).mp hstarted
  obtain ⟨hservice, hthrows⟩ := of_decide_eq_true hstatus
  exact ⟨a, s', g', hx, hservice, isNone_iff_eq_none.mp hthrows⟩

end Goblin.ObjectStore
