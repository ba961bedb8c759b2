import Goblin.ObjectManager.Requests

/-! Requests that run at the same time, and the versions of the route infos that they hand out. -/
namespace Goblin.ObjectManager

open Model Lib Lib.Optimistic ClusterSetManager List

/-- The requests in progress and those that are answered, each under its number. -/
abbrev Manager := Pool KVOp KVRes Answer Request KVStore ℕ

namespace Manager

def step (cfg : RingConfig) : Manager → Act Request ℕ → Option Manager :=
  Pool.step KVStore.answer KVStore.stamp (Request.program cfg)

/-- The route info that the `i`th request has filled, if it has ended and filled one. -/
def handsOut (p : Manager) (i : ℕ) : Option RouteInfo :=
  match p.threads i with
  | some ⟨_, _, .ret a⟩ => a.routeInfo
  | _ => none

/-- The cluster that the addresses of a request belong to. -/
def found (s : KVStore) (addresses : ClusterAddress) : Option (ClusterSetManager × Cluster) := do
  let m ← s.load
  let (_, count, id) ← Cluster.sameCluster (addresses.map s.cells)
  let c ← m.findClusterById id
  if count = 0 then none else some (m, c)

/-- No new address list for a cluster that serves, and no cluster starts beside others. -/
def KeepsPlacement : Request → KVStore → Prop
  | .addCluster addresses, s => ∀ x ∈ found s addresses,
    x.2.getStatus = .EXPORTING ∨ x.2.getStatus = .IN_SERVICE → addresses = x.2.getServerAddresses
  | .onStartup addresses, s => ∀ x ∈ found s addresses,
    x.2.getStatus = .INIT → x.1.isOnlyOneCluster ∨ x.1.hasMigrationTask
  | _, _ => True

instance : ∀ r s, Decidable (KeepsPlacement r s)
  | .addCluster addresses, s => inferInstanceAs (Decidable (∀ x ∈ found s addresses, _ → _))
  | .onStartup addresses, s => inferInstanceAs (Decidable (∀ x ∈ found s addresses, _ → _))
  | .onMigration _ _, _ => isTrue trivial
  | .router, _ => isTrue trivial

end Manager

def KVStore.routeVersion (s : KVStore) : ℕ :=
  match s.cells KEY_CLUSTER_GLOBAL_INFO with
  | some (.globalInfo info, _) => info.routeVersion
  | _ => 0

/-- The later of two stores has a larger route version or routes as the earlier one. -/
def Routes (s s' : KVStore) : Prop :=
  ∃ m m', s.load = some m ∧ s'.load = some m' ∧
    (m.mClusterSetGlobalInfo.routeVersion < m'.mClusterSetGlobalInfo.routeVersion ∨
      m.mClusterSetGlobalInfo.routeVersion = m'.mClusterSetGlobalInfo.routeVersion ∧
        m.directory.routing = m'.directory.routing)

theorem Routes.trans {s s' s'' : KVStore} (h : Routes s s') (h' : Routes s' s'') : Routes s s'' := by
  obtain ⟨m, m', hm, hm', hlt⟩ := h
  obtain ⟨m₁, m'', hm₁, hm'', hlt'⟩ := h'
  obtain rfl : m' = m₁ := Option.some.inj (hm'.symm.trans hm₁)
  refine ⟨m, m'', hm, hm'', ?_⟩
  rcases hlt with hlt | ⟨heq, hrouting⟩ <;> rcases hlt' with hlt' | ⟨heq', hrouting'⟩
  · exact .inl (hlt.trans hlt')
  · exact .inl (heq' ▸ hlt)
  · exact .inl (heq ▸ hlt')
  · exact .inr ⟨heq.trans heq', hrouting.trans hrouting'⟩

theorem routeVersion_of_load {s : KVStore} {m : ClusterSetManager} (h : s.load = some m) :
    s.routeVersion = m.mClusterSetGlobalInfo.routeVersion := by
  obtain ⟨hglobal, rfl⟩ | ⟨hglobal, -, -⟩ := load_cases h <;> simp [KVStore.routeVersion, hglobal]

theorem routing_map {info info' : ClusterSetGlobalInfo} {l : List (ClusterIdType × ClusterInfo)}
    {f : ClusterIdType × ClusterInfo → ClusterInfo}
    (h : ∀ p ∈ l, (f p).status = p.2.status ∧
      (p.2.status = .EXPORTING ∨ p.2.status = .IN_SERVICE → (f p).addr = p.2.addr)) :
    (⟨info', l.map fun p => (p.1, f p)⟩ : Directory).routing = (⟨info, l⟩ : Directory).routing := by
  induction l with
  | nil => rfl
  | cons p l ih =>
    obtain ⟨hp, hl⟩ := forall_mem_cons.mp h
    have ih := ih hl
    simp only [Directory.routing, map_cons, filter_cons, hp.1] at ih ⊢
    split_ifs with hserves
    · simp only [map_cons, ih, hp.2 (by simpa using hserves)]
    · exact ih

section Commit

variable {s s' : KVStore} {m : ClusterSetManager}

theorem Routes.of_lists {d : Directory} (hload : s.load = some m) (h : Lists s' d)
    (hd : m.mClusterSetGlobalInfo.routeVersion < d.info.routeVersion ∨
      m.mClusterSetGlobalInfo.routeVersion = d.info.routeVersion ∧ m.directory.routing = d.routing) :
    Routes s s' := by
  obtain ⟨m', hload', rfl⟩ := h.load
  exact ⟨m, m', hload, hload', hd⟩

theorem eq_of_mem_directory (hload : s.load = some m) {c : Cluster} (hc : c ∈ m.mClusterVector)
    {p : ClusterIdType × ClusterInfo} (hp : p ∈ m.directory.clusters) (hid : p.1 = c.mClusterId) :
    p.2 = c.mClusterInfo := by
  obtain ⟨c', hc', rfl⟩ := mem_map.mp hp
  have hrecord := record_of_mem hload hc
  rw [← hid, record_of_mem hload hc'] at hrecord
  exact Option.some.inj hrecord

theorem routes_create {addresses : ClusterAddress} (hload : s.load = some m)
    (hid : m.assignNewClusterId ∉ m.mClusterSetGlobalInfo.clusterIds)
    (hhosts : ∀ h ∈ addresses, s.cells h = none) :
    Routes s (s.write (Cluster.hostEntries m.assignNewClusterId addresses ++
        [(buildClusterKey m.assignNewClusterId, .clusterInfo ⟨addresses, .INIT⟩)] ++
        [(KEY_CLUSTER_GLOBAL_INFO, .globalInfo { m.mClusterSetGlobalInfo with
          clusterIds := m.mClusterSetGlobalInfo.clusterIds ++ [m.assignNewClusterId] })])) := by
  refine .of_lists hload (lists_create hload hid hhosts) (.inr ⟨rfl, ?_⟩)
  simp [Directory.routing]

theorem routes_update {addresses : ClusterAddress} {c : Cluster} (hload : s.load = some m)
    (hc : c ∈ m.mClusterVector)
    (hhosts : ∀ h ∈ addresses, ∀ cell, s.cells h = some cell → ∃ id, cell.1 = .clusterId id)
    (hkeeps : c.getStatus = .EXPORTING ∨ c.getStatus = .IN_SERVICE → addresses = c.getServerAddresses) :
    Routes s (s.write (Cluster.hostEntries c.mClusterId addresses ++
        [(buildClusterKey c.mClusterId, .clusterInfo ⟨addresses, c.getStatus⟩)] ++
        [(KEY_CLUSTER_GLOBAL_INFO, .globalInfo m.mClusterSetGlobalInfo)])) := by
  refine .of_lists hload (lists_update hload c hhosts) (.inr ⟨rfl, (routing_map fun p hp => ?_).symm⟩)
  split_ifs with hid
  · rw [eq_of_mem_directory hload hc hp hid]
    exact ⟨rfl, hkeeps⟩
  · exact ⟨rfl, fun _ => rfl⟩

theorem cells_of_exist {key : KeyType} (h : s.holds (.exist key false) = true) : s.cells key = none := by
  simpa [KVStore.holds] using h

theorem found_eq {addresses : ClusterAddress} {code : ResponseCode} {count : ℕ} {id : ClusterIdType}
    {c : Cluster} (hload : s.load = some m)
    (hsame : Cluster.sameCluster (addresses.map s.cells) = some (code, count, id)) (hcount : count ≠ 0)
    (hc : m.findClusterById id = some c) : Manager.found s addresses = some (m, c) := by
  simp [Manager.found, hload, hsame, hc, hcount]

theorem Commits.routes {r : Request} (h : Commits s r s') (hkeeps : Manager.KeepsPlacement r s) :
    Routes s s' := by
  cases h with
  | add hload hsame hplan hpreconds =>
    obtain ⟨rfl, ⟨hcount, hid, rfl, rfl⟩ | ⟨hcount, c, hc, rfl, rfl⟩⟩ := planAdd_cases hplan
    · refine routes_create hload hid fun h hh => cells_of_exist (all_eq_true.mp hpreconds _ ?_)
      exact mem_append_right _ (mem_cons_of_mem _ (mem_map_of_mem hh))
    · refine routes_update hload (findClusterById_spec hload hc).1 (fun h hh cell hcell => ?_)
        (hkeeps _ (found_eq hload hsame hcount hc))
      exact ⟨_, sameCluster_known hsame (hcell ▸ mem_map_of_mem hh)⟩
  | start hload hsame hcount hc hstatus hone =>
    exact .of_lists hload (lists_setStatus hload (findClusterById_spec hload hc).1 rfl rfl rfl)
      (.inl (Nat.lt_succ_self _))
  | onboard hload hsame hcount hc hstatus hone hmigration =>
    have hkeeps := hkeeps _ (found_eq hload hsame hcount hc) hstatus
    simp [hone, hmigration] at hkeeps
  | migrated hload hplan =>
    refine .of_lists hload (lists_migrated hload hplan) (.inl ?_)
    obtain ⟨_, _, _, _, _, _, _, _, _, _, _, rfl, _⟩ := planMigrationSuccess_cases hplan
    exact Nat.lt_succ_self _

theorem routeVersion_write {writes : List (KeyType × Value)} {info : ClusterSetGlobalInfo} :
    (s.write (writes ++ [(KEY_CLUSTER_GLOBAL_INFO, .globalInfo info)])).routeVersion = info.routeVersion := by
  simp only [KVStore.routeVersion, KVStore.cells_write_last]

theorem Commits.routeVersion_le {r : Request} (h : Commits s r s') : s.routeVersion ≤ s'.routeVersion := by
  cases h with
  | add hload hsame hplan hpreconds =>
    rw [routeVersion_of_load hload]
    obtain ⟨-, ⟨-, -, -, rfl⟩ | ⟨-, c, -, -, rfl⟩⟩ := planAdd_cases hplan
    · rw [routeVersion_write]
    · rw [routeVersion_write]
  | start hload hsame hcount hc hstatus hone =>
    rw [routeVersion_of_load hload, updateInTransaction, routeVersion_write]
    exact Nat.le_succ _
  | onboard hload hsame hcount hc hstatus hone hmigration =>
    rw [routeVersion_of_load hload, updateInTransaction, routeVersion_write]
  | migrated hload hplan =>
    obtain ⟨_, _, _, _, _, _, _, _, _, _, _, rfl, rfl⟩ := planMigrationSuccess_cases hplan
    rw [routeVersion_of_load hload, routeVersion_write]
    exact Nat.le_succ _

end Commit

namespace Manager

variable {cfg : RingConfig} {p p' : Manager}

/-- The stores have come about by changes that `H` allows. -/
abbrev Ordered (cfg : RingConfig) (H : Request → KVStore → Prop) (p : Manager) : Prop :=
  Pool.Inv KVStore.answer KVStore.stamp H (fun r s s' => Commits s r s') (fun _ => FilledFrom cfg) p

theorem Ordered.routeVersion_le {H : Request → KVStore → Prop} (h : Ordered cfg H p) {n n' : ℕ}
    {s s' : KVStore} (hle : n ≤ n') (hs : p.stores[n]? = some s) (hs' : p.stores[n']? = some s') :
    s.routeVersion ≤ s'.routeVersion := by
  have hpairwise : p.stores.Pairwise fun s s' => s.routeVersion ≤ s'.routeVersion := by
    have htrans : IsTrans KVStore fun s s' => s.routeVersion ≤ s'.routeVersion := ⟨fun _ _ _ => le_trans⟩
    exact isChain_iff_pairwise.mp (h.chain.imp fun s s' ⟨_, _, hcommit⟩ => hcommit.routeVersion_le)
  obtain ⟨hn, rfl⟩ := List.getElem?_eq_some_iff.mp hs
  obtain ⟨hn', rfl⟩ := List.getElem?_eq_some_iff.mp hs'
  rcases hle.eq_or_lt with rfl | hlt
  · exact le_rfl
  · exact pairwise_iff_getElem.mp hpairwise n n' hn hn' hlt

/-- The stores have come about by changes that keep the placement. -/
abbrev Serial (cfg : RingConfig) (p : Manager) : Prop := Ordered cfg KeepsPlacement p

theorem Serial.pairwise (h : Serial cfg p) : p.stores.Pairwise Routes := by
  have htrans : IsTrans KVStore Routes := ⟨fun _ _ _ => Routes.trans⟩
  refine isChain_iff_pairwise.mp (h.chain.imp fun s s' => ?_)
  rintro ⟨r, hkeeps, hcommit⟩
  exact hcommit.routes hkeeps

theorem Serial.routes (h : Serial cfg p) {n n' : ℕ} {s s' : KVStore} (hlt : n < n')
    (hs : p.stores[n]? = some s) (hs' : p.stores[n']? = some s') : Routes s s' := by
  obtain ⟨hn, rfl⟩ := List.getElem?_eq_some_iff.mp hs
  obtain ⟨hn', rfl⟩ := List.getElem?_eq_some_iff.mp hs'
  exact pairwise_iff_getElem.mp h.pairwise n n' hn hn' hlt

theorem version_of_fillRouteInfo {m : ClusterSetManager} {info : RouteInfo}
    (h : m.fillRouteInfo cfg = some info) : info.version = m.mClusterSetGlobalInfo.routeVersion := by
  obtain ⟨ring, _, h⟩ := Option.bind_eq_some_iff.mp h
  cases h
  rfl

/-- A route info that is handed out is that of a store since its request began. -/
theorem Ordered.exists_store {H : Request → KVStore → Prop} (h : Ordered cfg H p) {i : ℕ} {info : RouteInfo}
    (hi : p.handsOut i = some info) :
    ∃ t n s m, p.threads i = some t ∧ t.since ≤ n ∧ p.stores[n]? = some s ∧ s.load = some m ∧
      m.fillRouteInfo cfg = some info := by
  obtain ⟨r, since, a, ht, hinfo⟩ :
      ∃ r since a, p.threads i = some ⟨r, since, .ret a⟩ ∧ a.routeInfo = some info := by
    unfold handsOut at hi
    split at hi
    · exact ⟨_, _, _, ‹_›, hi⟩
    · cases hi
  obtain ⟨n, s, hn, hs, hfilled⟩ := h.result ht
  obtain ⟨m, hload, hfill⟩ := hfilled info hinfo
  exact ⟨_, n, s, m, ht, hn, hs, hload, hfill⟩

theorem Serial.eq_of_version_eq (h : Serial cfg p) {i i' : ℕ} {info info' : RouteInfo}
    (hi : p.handsOut i = some info) (hi' : p.handsOut i' = some info') (heq : info.version = info'.version) :
    info = info' := by
  obtain ⟨_, n, s, m, _, _, hs, hload, hfill⟩ := h.exists_store hi
  obtain ⟨_, n', s', m', _, _, hs', hload', hfill'⟩ := h.exists_store hi'
  -- the same version was filled from two stores, the earlier of which already routed like the later
  have hsame {n n' : ℕ} {s s' : KVStore} {m m' : ClusterSetManager} {info info' : RouteInfo} (hlt : n < n')
      (hs : p.stores[n]? = some s) (hs' : p.stores[n']? = some s') (hload : s.load = some m)
      (hload' : s'.load = some m') (hfill : m.fillRouteInfo cfg = some info)
      (hfill' : m'.fillRouteInfo cfg = some info') (heq : info.version = info'.version) : info = info' := by
    obtain ⟨m₁, m₁', hm, hm', hroutes⟩ := h.routes hlt hs hs'
    obtain rfl := Option.some.inj (hm.symm.trans hload)
    obtain rfl := Option.some.inj (hm'.symm.trans hload')
    rw [version_of_fillRouteInfo hfill, version_of_fillRouteInfo hfill'] at heq
    obtain ⟨-, hrouting⟩ := hroutes.resolve_left heq.not_lt
    rw [fillRouteInfo_eq, heq, hrouting, ← fillRouteInfo_eq] at hfill
    exact Option.some.inj (hfill.symm.trans hfill')
  rcases lt_trichotomy n n' with hlt | rfl | hlt
  · exact hsame hlt hs hs' hload hload' hfill hfill' heq
  · obtain rfl := Option.some.inj (hs.symm.trans hs')
    obtain rfl := Option.some.inj (hload.symm.trans hload')
    exact Option.some.inj (hfill.symm.trans hfill')
  · exact (hsame hlt hs' hs hload' hload hfill' hfill heq.symm).symm

/-- In a run in which every change keeps the placement or raises the version, a version stands for one
route info, the stored version never decreases, and a request that begins later never hands out a smaller
version. -/
theorem route_version_identifies (cfg : RingConfig) {s : KVStore} {as bs : List (Act Request ℕ)}
    {p p' : Manager}
    (hG : Meets (step cfg) (Pool.Admits KVStore.answer KVStore.stamp KeepsPlacement) { store := s } (as ++ bs))
    (hp : exec (step cfg) { store := s } as = some p) (hp' : exec (step cfg) p bs = some p') :
    (∀ i i' info info', p'.handsOut i = some info → p'.handsOut i' = some info' →
      info.version = info'.version → info = info') ∧
    p.store.routeVersion ≤ p'.store.routeVersion ∧
    ∀ i i' info info', p.handsOut i = some info → p.threads i' = none → p'.handsOut i' = some info' →
      info.version ≤ info'.version := by
  obtain ⟨hGp, hGp'⟩ := meets_append hG hp
  have h : Serial cfg p := (Pool.Inv.initial s).of_exec (begins_program cfg) hGp hp
  have h' : Serial cfg p' := h.of_exec (begins_program cfg) hGp' hp'
  obtain ⟨rest, hstores⟩ := h.stores_isPrefix_of_exec (begins_program cfg) hGp' hp'
  have hmem {n : ℕ} {s : KVStore} (hs : p.stores[n]? = some s) : p'.stores[n]? = some s := by
    rw [← hstores, List.getElem?_append_left (List.getElem?_eq_some_iff.mp hs).1]
    exact hs
  refine ⟨fun i i' info info' => h'.eq_of_version_eq, ?_, ?_⟩
  · refine h'.routeVersion_le ?_ (hmem Pool.stores_getElem?) Pool.stores_getElem?
    have hlength := congrArg List.length hstores
    simp only [length_append, Pool.stores_length] at hlength
    omega
  · intro i i' info info' hi hnone hi'
    obtain ⟨_, n, s, m, _, _, hs, hload, hfill⟩ := h.exists_store hi
    obtain ⟨t, n', s', m', ht, hn', hs', hload', hfill'⟩ := h'.exists_store hi'
    have hlt : n < p.stores.length := (List.getElem?_eq_some_iff.mp hs).1
    have hsince := Pool.since_le_of_exec hnone hp' ht
    have hle : n ≤ n' := by
      rw [Pool.stores_length] at hlt
      omega
    rw [version_of_fillRouteInfo hfill, version_of_fillRouteInfo hfill', ← routeVersion_of_load hload,
      ← routeVersion_of_load hload']
    exact h'.routeVersion_le hle (hmem hs) hs'

/-- The node of cluster 2 sits right before that of cluster 1. -/
def twoNodes : RingConfig where
  mHashFunc key := if key = "2" then 4095 else 0

/-- A cluster is added, started and asked for. -/
def onlyCluster : List (Act Request ℕ) :=
  [.begin 0 (.addCluster ["a"]), .step 0, .step 0, .step 0,
    .begin 1 (.onStartup ["a"]), .step 1, .step 1, .step 1, .step 1]

def askRoute : List (Act Request ℕ) := [.begin 2 .router, .step 2, .step 2]

theorem onlyCluster_identifies : ∃ p p' : Manager, ∃ info info',
    exec (step twoNodes) { store := {} } onlyCluster = some p ∧ exec (step twoNodes) p askRoute = some p' ∧
    p'.handsOut 1 = some info ∧ p'.handsOut 2 = some info' ∧ info.version = 1 ∧ info = info' := by
  have hG : Meets (step twoNodes) (Pool.Admits KVStore.answer KVStore.stamp KeepsPlacement) { store := {} }
      (onlyCluster ++ askRoute) := by decide +kernel
  have hp : exec (step twoNodes) { store := {} } onlyCluster = some _ := rfl
  exact ⟨_, _, _, _, hp, rfl, rfl, rfl, rfl, (route_version_identifies twoNodes hG hp rfl).1 1 2 _ _ rfl rfl rfl⟩

/-- A second cluster is added and started after that. -/
def secondCluster : List (Act Request ℕ) :=
  onlyCluster ++ askRoute ++
    [.begin 3 (.addCluster ["b"]), .step 3, .step 3, .step 3, .step 3,
      .begin 4 (.onStartup ["b"]), .step 4, .step 4, .step 4, .step 4]

theorem secondCluster_same_version : ∃ p : Manager,
    exec (step twoNodes) { store := {} } secondCluster = some p ∧
    (p.handsOut 2).map (fun info => (info.version, info.allClusters)) = some (1, [["a"]]) ∧
    (p.handsOut 4).map (fun info => (info.version, info.allClusters)) = some (1, [["a"], ["b"]]) :=
  exists_exec_of_any (by decide +kernel)

end Manager

end Goblin.ObjectManager
