import Goblin.ObjectManager.Placement

/-! The requests one by one: each reads one store, changes that one or none, and hands out the route info
of the store that it leaves. -/
namespace Goblin.ObjectManager

open Model Lib Lib.Optimistic ClusterSetManager List

/-- The clusters that serve, with their addresses. -/
def Directory.routing (d : Directory) : List (ClusterIdType × ClusterAddress) :=
  (d.clusters.filter fun p => p.2.status = .EXPORTING ∨ p.2.status = .IN_SERVICE).map fun p => (p.1, p.2.addr)

def routeOf (cfg : RingConfig) (version : ℕ) (clusters : List (ClusterIdType × ClusterAddress)) :
    Option RouteInfo := do
  let hashRing ← clusters.foldlM (fun ring c => (ring.addClusterId cfg c.1).map Prod.fst) ({} : HashRing)
  return {
    version
    allShards := List.range RING_LENGTH
    clusterWithShards := clusters.map fun c => ⟨hashRing.extractShardConfig c.1, c.2⟩
    allClusters := clusters.map Prod.snd }

theorem routing_directory (m : ClusterSetManager) :
    m.directory.routing = m.getRoutingCluster.map fun c => (c.mClusterId, c.getServerAddresses) := by
  simp only [Directory.routing, directory, getRoutingCluster, filter_map, map_map]
  rfl

theorem fillRouteInfo_eq (cfg : RingConfig) (m : ClusterSetManager) : m.fillRouteInfo cfg =
    routeOf cfg m.mClusterSetGlobalInfo.routeVersion m.directory.routing := by
  rw [routing_directory]
  simp only [fillRouteInfo, routingRing, routeOf, foldlM_map, map_map]
  rfl

theorem filledFrom_of_lists {cfg : RingConfig} {s : KVStore} {m : ClusterSetManager} {info : RouteInfo}
    (hm : Lists s m.directory) (hfill : m.fillRouteInfo cfg = some info) :
    ∃ m', s.load = some m' ∧ m'.fillRouteInfo cfg = some info := by
  obtain ⟨m', hload, hdirectory⟩ := hm.load
  refine ⟨m', hload, ?_⟩
  rw [← hfill, fillRouteInfo_eq, fillRouteInfo_eq, hdirectory]
  have hinfo : m'.mClusterSetGlobalInfo = m.mClusterSetGlobalInfo := congrArg Directory.info hdirectory
  rw [hinfo]

section Requests

variable {cfg : RingConfig} {s₀ cur : KVStore} {m : ClusterSetManager} {addresses : ClusterAddress}

abbrev CarefulKV (cfg : RingConfig) (r : Request) (s₀ cur : KVStore) (p : KVProg Answer) : Prop :=
  Careful KVStore.answer KVStore.stamp s₀ (Commits s₀ r) (FilledFrom cfg) cur p

theorem filledFrom_none {s : KVStore} {a : Answer} (h : a.routeInfo = none) : FilledFrom cfg s a :=
  fun info hinfo => by simp [h] at hinfo

theorem reads_isAddressInSameCluster (cur : KVStore) (addresses : ClusterAddress) :
    ReadsKV (fun s out => ViewKV cur s ∧
        (s = cur → Cluster.sameCluster (addresses.map cur.cells) = some out)) cur
      (Cluster.isAddressInSameCluster addresses) := by
  refine (reads_exeBatch cur addresses).bind fun s results ⟨hs, hresults⟩ => ?_
  refine (reads_orAbort _).mono ?_
  rintro s' out ⟨rfl, hout⟩
  exact ⟨hs, fun heq => hresults heq ▸ hout⟩

theorem careful_addCluster (hview : ViewKV s₀ cur) (hload : s₀.load = some m) :
    CarefulKV cfg (.addCluster addresses) s₀ cur (m.addCluster addresses >>= fun header => .ret { header }) := by
  unfold addCluster
  rw [Program.bind_assoc]
  refine Careful.bind (reads_isAddressInSameCluster cur addresses) ?_
  rintro s ⟨code, count, id⟩ ⟨hs, hsame⟩
  match hplan : m.planAdd addresses code count id with
  | .error header =>
    simp only [hplan]
    exact filledFrom_none rfl
  | .ok (preconds, writes) =>
    simp only [hplan]
    obtain ⟨entries, value, rfl, hpreconds⟩ : ∃ entries value,
        writes = entries ++ [(KEY_CLUSTER_GLOBAL_INFO, value)] ∧ ∀ p ∈ m.fillPrecondition, p ∈ preconds := by
      obtain ⟨_, ⟨_, _, rfl, rfl⟩ | ⟨_, c, _, rfl, rfl⟩⟩ := planAdd_cases hplan
      · exact ⟨_, _, rfl, fun p hp => mem_append_left _ hp⟩
      · exact ⟨_, _, rfl, fun p hp => mem_append_left _ hp⟩
    refine careful_trans (hview.trans hs) hload hpreconds (fun _ => filledFrom_none rfl) fun heq hholds => ?_
    obtain rfl := hview.eq_of_eq hs heq
    exact ⟨.add hload (hsame heq) hplan hholds, filledFrom_none rfl⟩

theorem careful_fill {r : Request} {α : Type} {x : Option α} {f : α → Answer} (hload : s₀.load = some m)
    (hf : ∀ a, x = some a → ∀ info, (f a).routeInfo = some info → m.fillRouteInfo cfg = some info) :
    CarefulKV cfg r s₀ cur (orAbort x >>= fun a => .ret (f a)) := by
  refine Careful.bind (reads_orAbort x) ?_
  rintro s a ⟨rfl, ha⟩
  exact fun info hinfo => ⟨m, hload, hf a ha info hinfo⟩

theorem ends_fill {s : KVStore} {m' : ClusterSetManager} {α : Type} {x : Option α} {f : α → Answer}
    (hm' : Lists s m'.directory)
    (hf : ∀ a, x = some a → ∀ info, (f a).routeInfo = some info → m'.fillRouteInfo cfg = some info) :
    Ends (FilledFrom cfg s) (orAbort x >>= fun a => .ret (f a)) := by
  cases x with
  | none => trivial
  | some a => exact fun info hinfo => filledFrom_of_lists hm' (hf a rfl info hinfo)

theorem fillRouteAndMigrationInfo_fst {out : RouteInfo × MigrationTask}
    (h : m.fillRouteAndMigrationInfo cfg = some out) : m.fillRouteInfo cfg = some out.1 := by
  obtain ⟨info, hinfo, h⟩ := Option.bind_eq_some_iff.mp h
  cases h
  exact hinfo

section Found

variable {c : Cluster} {count : ℕ} {id : ClusterIdType} (hview : ViewKV s₀ cur) (hload : s₀.load = some m)
  (hcount : count ≠ 0) (hc : m.findClusterById id = some c)
  (hsame : cur = s₀ → Cluster.sameCluster (addresses.map s₀.cells) = some (.OK, count, id))

include hview hload hcount hc hsame

theorem careful_startOnlyCluster (hstatus : c.getStatus = .INIT) (hone : m.isOnlyOneCluster = true) :
    CarefulKV cfg (.onStartup addresses) s₀ cur (m.startOnlyCluster cfg c) := by
  match hupdate : c.updateInTransaction .IN_SERVICE with
  | (entries, c') =>
    simp only [startOnlyCluster, hupdate]
    refine careful_trans hview hload (fun p hp => hp) (fun _ => filledFrom_none rfl) fun heq hholds => ?_
    refine ⟨?_, ?_⟩
    · have hcommit := Commits.start hload (hsame heq) hcount hc hstatus hone
      rwa [hupdate] at hcommit
    · have hlists : Lists _ (m.setCluster c').increaseGlobalRouteVersion.directory :=
        lists_setStatus hload (findClusterById_spec hload hc).1 hupdate rfl rfl
      exact ends_fill hlists fun info hfill _ h => h ▸ hfill

theorem careful_onboardCluster (hstatus : c.getStatus = .INIT) (hone : m.isOnlyOneCluster = false)
    (hmigration : m.hasMigrationTask = false) :
    CarefulKV cfg (.onStartup addresses) s₀ cur (m.onboardCluster cfg c) := by
  match hupdate : c.updateInTransaction .IN_SERVICE with
  | (entries, c') =>
    simp only [onboardCluster, hupdate]
    refine Careful.bind (reads_orAbort _) ?_
    rintro s _ ⟨rfl, -⟩
    refine careful_trans hview hload (fun p hp => hp) (fun _ => filledFrom_none rfl) fun heq hholds => ?_
    refine ⟨?_, ?_⟩
    · have hcommit := Commits.onboard hload (hsame heq) hcount hc hstatus hone hmigration
      rwa [hupdate] at hcommit
    · have hlists : Lists _ (m.setCluster c').directory :=
        lists_setStatus hload (findClusterById_spec hload hc).1 hupdate rfl rfl
      exact ends_fill hlists fun out hfill _ h => h ▸ fillRouteAndMigrationInfo_fst hfill

theorem careful_startFound (header : ResponseHeader) :
    CarefulKV cfg (.onStartup addresses) s₀ cur (m.startFound cfg header c) := by
  unfold startFound
  cases hstatus : c.getStatus with
  | OUT_OF_SERVICE => exact filledFrom_none rfl
  | IN_SERVICE => exact careful_fill hload fun info hfill _ h => h ▸ hfill
  | IMPORTING | EXPORTING => exact careful_fill hload fun out hfill _ h => h ▸ fillRouteAndMigrationInfo_fst hfill
  | INIT =>
    dsimp only
    split_ifs with hone hmigration
    · exact careful_startOnlyCluster hview hload hcount hc hsame hstatus hone
    · exact filledFrom_none rfl
    · exact careful_onboardCluster hview hload hcount hc hsame hstatus (by simpa using hone)
        (by simpa using hmigration)

end Found

theorem careful_startCluster {header : ResponseHeader} (hview : ViewKV s₀ cur) (hload : s₀.load = some m)
    (hne : addresses ≠ []) :
    CarefulKV cfg (.onStartup addresses) s₀ cur (m.startCluster cfg header addresses) := by
  refine Careful.bind (reads_isAddressInSameCluster cur addresses) ?_
  rintro s ⟨code, count, id⟩ ⟨hs, hsame⟩
  dsimp only
  split_ifs with hcode hbad
  · exact filledFrom_none rfl
  · exact filledFrom_none rfl
  · match hc : m.findClusterById id with
    | none => exact filledFrom_none rfl
    | some c =>
      have hsame₀ : s = s₀ → Cluster.sameCluster (addresses.map s₀.cells) = some (.OK, count, id) := by
        intro heq
        obtain rfl := hview.eq_of_eq hs heq
        rw [hsame heq, not_not.mp hcode]
      have hcount : count ≠ 0 := by
        rintro rfl
        exact hbad (.inl (length_pos_iff.mpr hne))
      exact careful_startFound (hview.trans hs) hload hcount hc hsame₀ header

theorem careful_handleMigrationSuccess {taskId : MigrationTaskIdType} (hview : ViewKV s₀ cur)
    (hload : s₀.load = some m) :
    CarefulKV cfg (.onMigration taskId .SUCCEEDED) s₀ cur (m.handleMigrationSuccess cfg taskId) := by
  refine Careful.bind (reads_orAbort _) ?_
  rintro s ⟨writes, m'⟩ ⟨rfl, hplan⟩
  obtain ⟨entries, value, rfl⟩ : ∃ entries value, writes = entries ++ [(KEY_CLUSTER_GLOBAL_INFO, value)] := by
    obtain ⟨_, _, _, _, _, _, _, _, _, _, _, _, rfl⟩ := planMigrationSuccess_cases hplan
    exact ⟨_, _, rfl⟩
  refine careful_trans hview hload (fun p hp => hp) (fun _ => filledFrom_none rfl) fun _ _ => ?_
  exact ⟨.migrated hload hplan, ends_fill (lists_migrated hload hplan) fun info hfill _ h => h ▸ hfill⟩

abbrev BeginsKV (cfg : RingConfig) (r : Request) (p : KVProg Answer) : Prop :=
  Begins KVStore.answer KVStore.stamp (fun s s' => Commits s r s') (FilledFrom cfg) p

theorem begins_withManager {r : Request} {f : ResponseHeader → ClusterSetManager → KVProg Answer}
    (hf : ∀ s₀ cur header m, ViewKV s₀ cur → s₀.load = some m → CarefulKV cfg r s₀ cur (f header m)) :
    BeginsKV cfg r (Request.withManager f) := by
  refine fun s₀ => ⟨rfl, Careful.bind (reads_initFrom s₀) ?_⟩
  rintro cur ⟨header, m⟩ ⟨hview, hload⟩
  dsimp only
  split_ifs with hcode
  · exact filledFrom_none rfl
  · exact hf s₀ cur header m hview (hload (not_not.mp hcode))

theorem begins_program (cfg : RingConfig) (r : Request) : BeginsKV cfg r (r.program cfg) := by
  cases r with
  | addCluster addresses =>
    simp only [Request.program]
    split_ifs
    · exact fun _ => filledFrom_none rfl
    · exact begins_withManager fun _ _ _ _ hview hload => careful_addCluster hview hload
  | onStartup addresses =>
    simp only [Request.program]
    split_ifs with hne
    · exact fun _ => filledFrom_none rfl
    · exact begins_withManager fun _ _ _ _ hview hload => careful_startCluster hview hload hne
  | onMigration taskId overallStatus =>
    cases overallStatus with
    | SUCCEEDED => exact begins_withManager fun _ _ _ _ hview hload => careful_handleMigrationSuccess hview hload
    | NOT_START | PREPARED | RUNNING | FAILED => exact fun _ => filledFrom_none rfl
  | router =>
    simp only [Request.program]
    refine begins_withManager fun _ _ _ _ _ hload => ?_
    exact careful_fill hload fun info hfill _ h => h ▸ hfill

end Requests

end Goblin.ObjectManager
