import Goblin.ObjectManager.ClusterSetManager

/-! Every transaction of the manager is conditioned on the version of the global info and writes it, so
requests that run at the same time take effect one after the other. -/
namespace Goblin.ObjectManager

open Model Lib Lib.Optimistic ClusterSetManager List Option

/-- The manager that `init` builds when nothing changes while it reads. -/
def KVStore.load (s : KVStore) : Option ClusterSetManager :=
  match s.cells KEY_CLUSTER_GLOBAL_INFO with
  | none => some {}
  | some (.globalInfo info, version) => do
    let clusters ← info.clusterIds.mapM fun id => (s.cells (buildClusterKey id)).bind (parseCluster id)
    let migrations ← info.migrationTaskIds.mapM fun id =>
      (s.cells (buildMigrationTaskKey id)).bind (parseMigration id)
    return ⟨version, info, clusters, migrations⟩
  | some _ => none

section Reading

variable {α : Type} {s₀ cur : KVStore}

abbrev ReadsKV (P : KVStore → α → Prop) (cur : KVStore) (p : KVProg α) : Prop :=
  Reads KVStore.answer KVStore.stamp P cur p

abbrev ViewKV : KVStore → KVStore → Prop := View KVStore.stamp

theorem reads_orAbort (x : Option α) :
    ReadsKV (fun s a => s = cur ∧ x = some a) cur (orAbort x) := by
  cases x with
  | none => trivial
  | some a => exact ⟨rfl, rfl⟩

/-- If the store is the same at the end, it has been so at every read. -/
theorem reads_exeBatch (cur : KVStore) (keys : List KeyType) :
    ReadsKV (fun s results => ViewKV cur s ∧ (s = cur → results = keys.map cur.cells)) cur
      (KVEngine.exeBatch keys) := by
  induction keys generalizing cur with
  | nil => exact ⟨View.refl cur, fun _ => rfl⟩
  | cons key keys ih =>
    refine fun s hs => ⟨rfl, (ih s).bind fun s' results ⟨hs', hresults⟩ => ?_⟩
    refine ⟨hs.trans hs', fun heq => ?_⟩
    obtain rfl := hs.eq_of_eq hs' heq
    rw [hresults heq]
    rfl

theorem reads_loadAll {β γ : Type} (parse : β → Cell → Option γ) (l : List (β × Option Cell)) :
    ReadsKV (fun s r => s = cur ∧ ∀ xs, r = some xs →
      l.mapM (fun p => p.2.bind (parse p.1)) = some xs) cur (loadAll parse l) := by
  induction l with
  | nil => exact ⟨rfl, fun xs h => h⟩
  | cons p l ih =>
    obtain ⟨id, _ | cell⟩ := p
    · exact ⟨rfl, nofun⟩
    · refine (reads_orAbort (parse id cell)).bind ?_
      rintro s x ⟨rfl, hx⟩
      refine ih.bind ?_
      rintro s r ⟨rfl, hr⟩
      refine ⟨rfl, fun xs hxs => ?_⟩
      obtain ⟨ys, hys, rfl⟩ := map_eq_some_iff.mp hxs
      simp [mapM_cons, hx, hr ys hys]

theorem mapM_zip {β γ : Type} (parse : β → Cell → Option γ) (key : β → KeyType) (ids : List β)
    (cells : KeyType → Option Cell) :
    (ids.zip ((ids.map key).map cells)).mapM (fun p => p.2.bind (parse p.1)) =
      ids.mapM fun id => (cells (key id)).bind (parse id) := by
  induction ids with
  | nil => rfl
  | cons id ids ih => simpa [mapM_cons] using by rw [← ih]; simp

theorem stamp_of_global {s : KVStore} {cell : Cell} (h : s.cells KEY_CLUSTER_GLOBAL_INFO = some cell) :
    s.stamp = cell.2 := by
  simp [KVStore.stamp, h]

theorem stamp_of_holds {s : KVStore} {version : ℕ}
    (h : s.holds (.version KEY_CLUSTER_GLOBAL_INFO version) = true) : s.stamp = version := by
  obtain ⟨cell, hcell, hversion⟩ : ∃ cell, s.cells KEY_CLUSTER_GLOBAL_INFO = some cell ∧ cell.2 = version := by
    simpa [KVStore.holds, Option.any_eq_true] using h
  rw [stamp_of_global hcell, hversion]

theorem reads_loadRecords {info : ClusterSetGlobalInfo} {version : ℕ}
    (hglobal : cur.cells KEY_CLUSTER_GLOBAL_INFO = some (.globalInfo info, version)) :
    ReadsKV (fun s out => s = cur ∧ (out.1.code = .OK → cur.load = some out.2)) cur
      (loadRecords { mVersion := version, mClusterSetGlobalInfo := info }
        ((recordKeys info).map cur.cells)) := by
  have htake : ((recordKeys info).map cur.cells).take info.clusterIds.length =
      (info.clusterIds.map buildClusterKey).map cur.cells := by
    simp [recordKeys]
  have hdrop : ((recordKeys info).map cur.cells).drop info.clusterIds.length =
      (info.migrationTaskIds.map buildMigrationTaskKey).map cur.cells := by
    simp [recordKeys]
  refine (reads_loadAll parseCluster _).bind ?_
  rintro s (_ | clusters) ⟨rfl, hclusters⟩
  · exact ⟨rfl, nofun⟩
  · refine (reads_loadAll parseMigration _).bind ?_
    rintro s (_ | migrations) ⟨rfl, hmigrations⟩
    · exact ⟨rfl, nofun⟩
    · refine ⟨rfl, fun _ => ?_⟩
      have h₁ := hclusters clusters rfl
      have h₂ := hmigrations migrations rfl
      rw [htake, mapM_zip] at h₁
      rw [hdrop, mapM_zip] at h₂
      simp [KVStore.load, hglobal, h₁, h₂]

/-- `init` once it has read the records. -/
def initRead (m : ClusterSetManager) (results : Option (List (Option Cell))) :
    KVProg (ResponseHeader × ClusterSetManager) :=
  match results with
  | none => pure (⟨.PRECOND_NOT_MATCHED, "ClusterSetManager::init, load global info in transaction failed"⟩, m)
  | some results => loadRecords m results

/-- A manager that `init` has built without an error is the one of the store in which it has begun. -/
theorem reads_initFrom (s₀ : KVStore) :
    ReadsKV (fun s out => ViewKV s₀ s ∧ (out.1.code = .OK → s₀.load = some out.2)) s₀
      (initFrom (s₀.cells KEY_CLUSTER_GLOBAL_INFO)) := by
  cases hglobal : s₀.cells KEY_CLUSTER_GLOBAL_INFO with
  | none => exact ⟨View.refl s₀, fun _ => by simp [KVStore.load, hglobal]⟩
  | some cell =>
    obtain ⟨value, version⟩ := cell
    cases value with
    | globalInfo info =>
      have hversion : version ≠ NON_VERSION := (s₀.bounded _ _ hglobal).1.ne'
      simp only [initFrom, if_neg hversion]
      intro s hs
      refine ⟨rfl, ?_⟩
      change ReadsKV _ s (initRead _ (if (Precond.version KEY_CLUSTER_GLOBAL_INFO version ::
        (recordKeys info).map (Precond.exist · true)).all s.holds then _ else _))
      split_ifs with hpreconds
      · obtain rfl : s = s₀ := by
          refine hs.eq_of_stamp ?_
          rw [stamp_of_global hglobal]
          exact stamp_of_holds (by simpa using all_eq_true.mp hpreconds _ mem_cons_self)
        exact (reads_loadRecords hglobal).mono fun s' out h => ⟨.inl h.1, h.2⟩
      · exact ⟨hs, fun hcode => by cases hcode⟩
    | clusterInfo info | migrationTask task | clusterId id => trivial

end Reading

/-- The changes that the requests make, each at once. -/
inductive Commits (s : KVStore) : Request → KVStore → Prop
  | add {m : ClusterSetManager} {addresses : ClusterAddress} {code : ResponseCode} {count : ℕ}
      {id : ClusterIdType} {preconds : List Precond} {writes : List (KeyType × Value)}
      (hload : s.load = some m)
      (hsame : Cluster.sameCluster (addresses.map s.cells) = some (code, count, id))
      (hplan : m.planAdd addresses code count id = .ok (preconds, writes))
      (hpreconds : preconds.all s.holds = true) : Commits s (.addCluster addresses) (s.write writes)
  | start {m : ClusterSetManager} {addresses : ClusterAddress} {count : ℕ} {id : ClusterIdType}
      {c : Cluster} (hload : s.load = some m)
      (hsame : Cluster.sameCluster (addresses.map s.cells) = some (.OK, count, id)) (hcount : count ≠ 0)
      (hc : m.findClusterById id = some c) (hstatus : c.getStatus = .INIT)
      (hone : m.isOnlyOneCluster = true) :
      Commits s (.onStartup addresses)
        (s.write ((c.updateInTransaction .IN_SERVICE).1 ++ [m.increaseGlobalRouteVersion.updateInTransaction]))
  | onboard {m : ClusterSetManager} {addresses : ClusterAddress} {count : ℕ} {id : ClusterIdType}
      {c : Cluster} (hload : s.load = some m)
      (hsame : Cluster.sameCluster (addresses.map s.cells) = some (.OK, count, id)) (hcount : count ≠ 0)
      (hc : m.findClusterById id = some c) (hstatus : c.getStatus = .INIT)
      (hone : m.isOnlyOneCluster = false) (hmigration : m.hasMigrationTask = false) :
      Commits s (.onStartup addresses)
        (s.write ((c.updateInTransaction .IN_SERVICE).1 ++ [m.updateInTransaction]))
  | migrated {m m' : ClusterSetManager} {taskId : MigrationTaskIdType} {writes : List (KeyType × Value)}
      (hload : s.load = some m) (hplan : m.planMigrationSuccess taskId = some (writes, m')) :
      Commits s (.onMigration taskId .SUCCEEDED) (s.write writes)

/-- The route info is that of the store. -/
def FilledFrom (cfg : RingConfig) (s : KVStore) (a : Answer) : Prop :=
  ∀ info, a.routeInfo = some info → ∃ m, s.load = some m ∧ m.fillRouteInfo cfg = some info

section Guard

variable {s₀ s cur : KVStore} {m : ClusterSetManager}

theorem load_cases (h : s₀.load = some m) :
    s₀.cells KEY_CLUSTER_GLOBAL_INFO = none ∧ m = {} ∨
      s₀.cells KEY_CLUSTER_GLOBAL_INFO = some (.globalInfo m.mClusterSetGlobalInfo, m.mVersion) ∧
      (m.mClusterSetGlobalInfo.clusterIds.mapM fun id =>
        (s₀.cells (buildClusterKey id)).bind (parseCluster id)) = some m.mClusterVector ∧
      (m.mClusterSetGlobalInfo.migrationTaskIds.mapM fun id =>
        (s₀.cells (buildMigrationTaskKey id)).bind (parseMigration id)) = some m.mMigrationVector := by
  match hglobal : s₀.cells KEY_CLUSTER_GLOBAL_INFO with
  | none => exact .inl ⟨rfl, by simpa [KVStore.load, hglobal, eq_comm] using h⟩
  | some (.globalInfo info, version) =>
    simp only [KVStore.load, hglobal] at h
    obtain ⟨clusters, hclusters, h⟩ := bind_eq_some_iff.mp h
    obtain ⟨migrations, hmigrations, h⟩ := bind_eq_some_iff.mp h
    cases h
    exact .inr ⟨rfl, hclusters, hmigrations⟩
  | some (.clusterInfo info, _) => simp [KVStore.load, hglobal] at h
  | some (.migrationTask task, _) => simp [KVStore.load, hglobal] at h
  | some (.clusterId id, _) => simp [KVStore.load, hglobal] at h

/-- The preconditions of a manager hold only as long as the global info is the one it has read. -/
theorem stamp_of_fillPrecondition (hload : s₀.load = some m)
    (h : m.fillPrecondition.all s.holds = true) : s.stamp = s₀.stamp := by
  obtain ⟨hglobal, rfl⟩ | ⟨hglobal, -, -⟩ := load_cases hload
  · have hnone : s.cells KEY_CLUSTER_GLOBAL_INFO = none := by
      simpa [fillPrecondition, isEmtpy, KVStore.holds] using h
    simp [KVStore.stamp, hglobal, hnone]
  · have hversion : m.isEmtpy = false := decide_eq_false (s₀.bounded _ _ hglobal).1.ne'
    rw [stamp_of_global hglobal]
    refine stamp_of_holds (all_eq_true.mp h _ ?_)
    simp [fillPrecondition, hversion]

theorem stamp_write {writes : List (KeyType × Value)} {value : Value} :
    s.stamp < (s.write (writes ++ [(KEY_CLUSTER_GLOBAL_INFO, value)])).stamp := by
  rw [stamp_of_global KVStore.cells_write_last, Nat.lt_succ_iff]
  cases hglobal : s.cells KEY_CLUSTER_GLOBAL_INFO with
  | none => simp [KVStore.stamp, hglobal, NON_VERSION]
  | some cell => exact stamp_of_global hglobal ▸ (s.bounded _ _ hglobal).2

/-- A transaction with the manager's preconditions is made in the store that the manager has read, or not
at all. -/
theorem careful_trans {α : Type} {T : KVStore → Prop} {Q : KVStore → α → Prop} {preconds : List Precond}
    {writes : List (KeyType × Value)} {value : Value} {f : ResponseHeader → KVProg α}
    (hview : ViewKV s₀ cur) (hload : s₀.load = some m)
    (hpreconds : ∀ p ∈ m.fillPrecondition, p ∈ preconds)
    (hfail : ∀ s, Careful KVStore.answer KVStore.stamp s₀ T Q s (f ⟨.PRECOND_NOT_MATCHED, ""⟩))
    (hok : cur = s₀ → preconds.all s₀.holds = true →
      T (s₀.write (writes ++ [(KEY_CLUSTER_GLOBAL_INFO, value)])) ∧
        Ends (Q (s₀.write (writes ++ [(KEY_CLUSTER_GLOBAL_INFO, value)]))) (f ⟨.OK, ""⟩)) :
    Careful KVStore.answer KVStore.stamp s₀ T Q cur
      (trans preconds (writes ++ [(KEY_CLUSTER_GLOBAL_INFO, value)]) >>= f) := by
  intro s hs
  by_cases hholds : preconds.all s.holds = true
  · have hguard : m.fillPrecondition.all s.holds = true :=
      all_eq_true.mpr fun p hp => all_eq_true.mp hholds p (hpreconds p hp)
    obtain rfl := (hview.trans hs).eq_of_stamp (stamp_of_fillPrecondition hload hguard)
    have hcur := hview.eq_of_eq hs rfl
    have hanswer : s.answer (.transWrite preconds (writes ++ [(KEY_CLUSTER_GLOBAL_INFO, value)])) =
        (true, s.write (writes ++ [(KEY_CLUSTER_GLOBAL_INFO, value)])) := if_pos hholds
    rw [hanswer]
    exact .inr ⟨rfl, stamp_write, hok hcur hholds⟩
  · have hanswer : s.answer (.transWrite preconds (writes ++ [(KEY_CLUSTER_GLOBAL_INFO, value)])) =
        (false, s) := if_neg hholds
    rw [hanswer]
    exact .inl ⟨rfl, hfail s⟩

end Guard

end Goblin.ObjectManager
