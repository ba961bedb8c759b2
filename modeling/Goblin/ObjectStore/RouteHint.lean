import Goblin.Execution.KVEngine
import Goblin.ObjectStore.PreExecute

/-! The route hints in the replies to requests that the route check has rejected. -/
namespace Goblin.ObjectStore

open Model Execution KVEngine List

/-- The servers in the `routeHint` that `fillResponseAndReply` adds. -/
def routeHint (c : Command) (status : Status) : List String :=
  if c.routeHintCode = some (toResponseCode status) then tokenize status.detail ',' else []

namespace Info

/-- The address of a server in the route info or the migration task. -/
def HasServer (info : Info) (server : String) : Prop :=
  (∃ x ∈ info.mRouteInfoHelper.mRouteInfo.clusterWithShards, server ∈ x.cluster) ∨
    (∃ cluster ∈ info.mRouteInfoHelper.mRouteInfo.allClusters, server ∈ cluster) ∨
    server ∈ info.mMigrationInfoHelper.mMigrationTask.sourceCluster ∨
    server ∈ info.mMigrationInfoHelper.mMigrationTask.targetCluster

structure HintRight (info : Info) (c : Command) (status : Status) : Prop where
  migrated : toResponseCode status = .MIGRATED_ROUTE →
    routeHint c status = info.mMigrationInfoHelper.mMigrationTask.targetCluster
  other : toResponseCode status ≠ .MIGRATED_ROUTE → ∀ server ∈ routeHint c status, info.HasServer server

/-- The check gets to the keys. -/
def ChecksKeys (info : Info) (routeVersion : ℕ) : Prop :=
  info.mRouteInfoHelper.getRouteVersion = routeVersion ∧ info.mStatus ≠ .OUT_OF_SERVICE ∧
    info.mRouteInfoHelper.getPartionStrategy = .HASH_MOD

/-- An address that can stand in a list that is split at its commas. -/
def Listable (server : String) : Prop := server ≠ "" ∧ ',' ∉ server.toList ∧ '\n' ∉ server.toList

/-- If the check gets to the keys and refuses one: a key that strays, only for a delete, or if a server has the name of
the message; a key that has moved away, only for a delete with addresses that can stand in a list, or if there is no
server to name. -/
def Hints (info : Info) (c : Command) (routeVersion : ℕ) (st : Stores) (keys : List KeyType) : Prop :=
  info.ChecksKeys routeVersion → ∀ key, info.firstRefused st (targetShard keys) keys = some key →
    if info.Strays (targetShard keys key) then
      c.routeHintCode = some .MIGRATED_ROUTE ∨ info.HasServer "routed to a wrong cluster"
    else if c.routeHintCode = some .MIGRATED_ROUTE then
      ∀ server ∈ info.mMigrationInfoHelper.mMigrationTask.targetCluster, Listable server
    else info.mMigrationInfoHelper.mMigrationTask.targetCluster = []

theorem notMem_of_mem_splitOn {delim : Char} {str part : List Char} (h : part ∈ str.splitOn delim) :
    delim ∉ part := by
  rw [List.splitOn] at h
  induction str generalizing part with
  | nil =>
    rw [splitOnP_nil, mem_singleton] at h
    simp [h]
  | cons c str ih =>
    rw [splitOnP_cons_eq_if_modifyHead] at h
    split_ifs at h with hdelim
    · obtain rfl | h := mem_cons.mp h
      · exact not_mem_nil
      · exact ih h
    · cases hparts : str.splitOnP (· == delim) with
      | nil => simp [hparts] at h
      | cons first parts =>
        rw [hparts] at h ih
        obtain rfl | h := mem_cons.mp h
        · have hne : c ≠ delim := by simpa using hdelim
          simp [ih mem_cons_self, hne.symm]
        · exact ih (mem_cons_of_mem _ h)

theorem listable_of_mem_tokenize {str server : String} (h : server ∈ tokenize str ',') :
    ',' ∉ server.toList ∧ '\n' ∉ server.toList := by
  obtain ⟨part, hpart, rfl⟩ := mem_map.mp h
  have hcomma : ',' ∉ part := notMem_of_mem_splitOn (mem_filter.mp hpart).1
  simp [mem_filter, hcomma]

theorem toList_clusterToAddressFormat (server : String) (rest : List String) :
    (clusterToAddressFormat (server :: rest)).toList = [','].intercalate ((server :: rest).map String.toList) := by
  have hjoin (acc : String) (l : List String) : (l.foldl (fun format s => format ++ ("," ++ s)) acc).toList =
      [','].intercalate (acc.toList :: l.map String.toList) := by
    induction l generalizing acc with
    | nil => simp [List.intercalate]
    | cons s l ih =>
      rw [foldl_cons, ih]
      cases l <;> simp [List.intercalate]
  exact hjoin server rest

/-- Addresses without commas and newlines come back, apart from those that are empty. -/
theorem tokenize_clusterToAddressFormat {servers : ClusterAddress}
    (h : ∀ server ∈ servers, ',' ∉ server.toList ∧ '\n' ∉ server.toList) :
    tokenize (clusterToAddressFormat servers) ',' = servers.filter (· ≠ "") := by
  cases servers with
  | nil => rfl
  | cons server rest =>
    have hcommas : ∀ l ∈ (server :: rest).map String.toList, ',' ∉ l := by
      intro l hl
      obtain ⟨s, hs, rfl⟩ := mem_map.mp hl
      exact (h s hs).1
    have hsplit := splitOn_intercalate ',' hcommas (cons_ne_nil _ _)
    rw [tokenize, toList_clusterToAddressFormat, hsplit, filter_map, map_map]
    have hempty : (fun l : List Char => decide (l ≠ [])) ∘ String.toList = fun s : String => decide (s ≠ "") := by
      funext s
      simp
    rw [hempty]
    refine (map_congr_left fun s hs => ?_).trans (map_id _)
    have hkeep : s.toList.filter (· ≠ '\n') = s.toList :=
      filter_eq_self.mpr fun c hc =>
        decide_eq_true fun (heq : c = '\n') => (h s (mem_of_mem_filter hs)).2 (heq ▸ hc)
    simp only [Function.comp_apply, hkeep, String.ofList_toList, id]

theorem tokenize_eq_iff {servers : ClusterAddress} :
    tokenize (clusterToAddressFormat servers) ',' = servers ↔ ∀ server ∈ servers, Listable server := by
  constructor
  · intro h
    have hplain : ∀ server ∈ servers, ',' ∉ server.toList ∧ '\n' ∉ server.toList := fun server hserver =>
      listable_of_mem_tokenize (h ▸ hserver)
    rw [tokenize_clusterToAddressFormat hplain, filter_eq_self] at h
    exact fun server hserver => ⟨of_decide_eq_true (h server hserver), hplain server hserver⟩
  · intro h
    rw [tokenize_clusterToAddressFormat fun server hserver => (h server hserver).2, filter_eq_self]
    exact fun server hserver => decide_eq_true (h server hserver).1

end Info

/-- The commands of the requests whose route is checked. -/
inductive Routed : Command → Prop
  | put (e : WriteEntry) : Routed (KVPutCommand e)
  | get (req : GetRequest) : Routed (KVGetCommand req)
  | delete (req : DeleteRequest) : Routed (KVDeleteCommand req)
  | trans (req : TransRequest) : Routed (KVTransCommand req)
  | generate (req : GenerateRequest) : Routed (KVGenerateCommand req)

theorem Routed.routeHintCode {c : Command} (h : Routed c) :
    c.routeHintCode = some .WRONG_ROUTE ∨ c.routeHintCode = some .MIGRATED_ROUTE := by
  cases h with
  | delete req => exact .inr rfl
  | _ => exact .inl rfl

section

variable {info : Info} {c : Command} {routeVersion : ℕ} {keys : List KeyType} {st st' : Stores} {status : Status}

theorem hintRight_wrongRoute (hc : Routed c) : info.HintRight c (.wrongRoute "routed to a wrong cluster") ↔
    c.routeHintCode = some .MIGRATED_ROUTE ∨ info.HasServer "routed to a wrong cluster" := by
  have htokens : tokenize "routed to a wrong cluster" ',' = ["routed to a wrong cluster"] := by decide +kernel
  have hother : toResponseCode (.wrongRoute "routed to a wrong cluster") = .WRONG_ROUTE := rfl
  rcases hc.routeHintCode with hcode | hcode
  · have hhint : routeHint c (.wrongRoute "routed to a wrong cluster") = ["routed to a wrong cluster"] :=
      (if_pos hcode).trans htokens
    rw [hcode]
    constructor
    · intro h
      exact .inr (h.other nofun _ (by rw [hhint]; exact mem_singleton_self _))
    · rintro (hmigrated | hserver)
      · cases hmigrated
      · refine ⟨nofun, fun _ server hmem => ?_⟩
        rw [hhint, mem_singleton] at hmem
        exact hmem ▸ hserver
  · have hhint : routeHint c (.wrongRoute "routed to a wrong cluster") = [] :=
      if_neg (by rw [hcode, hother]; nofun)
    exact iff_of_true ⟨nofun, fun _ server hmem => by rw [hhint] at hmem; cases hmem⟩ (.inl hcode)

theorem hintRight_migratedRoute :
    info.HintRight c (.migratedRoute info.mMigrationInfoHelper.getTargetCluster) ↔
      if c.routeHintCode = some .MIGRATED_ROUTE then
        ∀ server ∈ info.mMigrationInfoHelper.mMigrationTask.targetCluster, Info.Listable server
      else info.mMigrationInfoHelper.mMigrationTask.targetCluster = [] := by
  have hright : info.HintRight c (.migratedRoute info.mMigrationInfoHelper.getTargetCluster) ↔
      routeHint c (.migratedRoute info.mMigrationInfoHelper.getTargetCluster) =
        info.mMigrationInfoHelper.mMigrationTask.targetCluster :=
    ⟨fun h => h.migrated rfl, fun h => ⟨fun _ => h, fun hne => absurd rfl hne⟩⟩
  rw [hright]
  split_ifs with hcode
  · rw [← Info.tokenize_eq_iff]
    exact iff_of_eq (congrArg (· = _) (if_pos hcode))
  · rw [show routeHint c (.migratedRoute info.mMigrationInfoHelper.getTargetCluster) = [] from if_neg hcode]
    exact eq_comm

/-- Codes that no command fills a hint under. -/
theorem hintRight_of_code (hc : Routed c) (hmigrated : toResponseCode status ≠ .MIGRATED_ROUTE)
    (hwrong : toResponseCode status ≠ .WRONG_ROUTE) : info.HintRight c status := by
  have hnone : routeHint c status = [] := by
    refine if_neg fun hhint => ?_
    rcases hc.routeHintCode with heq | heq
    · exact hwrong (Option.some.inj (hhint.symm.trans heq))
    · exact hmigrated (Option.some.inj (hhint.symm.trans heq))
  exact ⟨fun hm => absurd hm hmigrated, fun _ server hmem => by rw [hnone] at hmem; cases hmem⟩

theorem Info.known_of_run (hkeys : keys ≠ [])
    (hrun : (info.checkKeys (targetShard keys) keys).run Stores.answer st = some (status, st')) : info.Known := by
  by_contra hunknown
  rw [Info.run_checkKeys_unknown hunknown hkeys] at hrun
  cases hrun

/-- A rejected request has the right route hint exactly if it was not refused for a key, or is a delete that can name
the servers, up to a server with the name of a message and a target cluster without servers. -/
theorem route_hint_names_servers (hc : Routed c)
    (hrun : (info.preExecuteCallBack routeVersion keys).run Stores.answer st = some (status, st'))
    (hrejected : status.isOK = false) : info.HintRight c status ↔ info.Hints c routeVersion st keys := by
  unfold Info.preExecuteCallBack at hrun
  split_ifs at hrun with hold hnew hservice hstrategy
  · cases hrun
    exact iff_of_true (hintRight_of_code hc nofun nofun) fun hchecks => absurd hchecks.1 (by omega)
  · cases hrun
    exact iff_of_true (hintRight_of_code hc nofun nofun) fun hchecks => absurd hchecks.1 (by omega)
  · cases hrun
    exact iff_of_true (hintRight_of_code hc nofun nofun) fun hchecks => absurd hservice hchecks.2.1
  · cases hrun
    exact iff_of_true (hintRight_of_code hc nofun nofun) fun hchecks => absurd hchecks.2.2 hstrategy
  by_cases hkeys : keys = []
  · subst hkeys
    cases hrun
    cases hrejected
  obtain ⟨_, hchecked, hcause, -⟩ := Info.run_checkKeys (Info.known_of_run hkeys hrun) st (targetShard keys) keys
  cases hchecked.symm.trans hrun
  have hchecks : info.ChecksKeys routeVersion := ⟨by omega, hservice, not_not.mp hstrategy⟩
  obtain rfl | ⟨key, hfirst, hverdict⟩ := hcause
  · cases hrejected
  have hhints : info.Hints c routeVersion st keys ↔
      if info.Strays (targetShard keys key) then
        c.routeHintCode = some .MIGRATED_ROUTE ∨ info.HasServer "routed to a wrong cluster"
      else if c.routeHintCode = some .MIGRATED_ROUTE then
        ∀ server ∈ info.mMigrationInfoHelper.mMigrationTask.targetCluster, Info.Listable server
      else info.mMigrationInfoHelper.mMigrationTask.targetCluster = [] := by
    refine ⟨fun h => h hchecks key hfirst, fun h _ key' hfirst' => ?_⟩
    cases hfirst.symm.trans hfirst'
    exact h
  rw [hhints]
  cases hverdict with
  | strays hstrays => rw [if_pos hstrays, hintRight_wrongRoute hc]
  | redirects hstays _ => rw [if_neg hstays, hintRight_migratedRoute]

end

/-- A server that has given the shard of "k" away to a cluster with the server "b". -/
def exported : Info where
  mStatus := .EXPORTING
  mRouteInfoHelper := { mCluster2ShardIds := fun _ => some [targetShard ["k"] "k"] }
  mMigrationInfoHelper := { mMigrationTask := { targetCluster := ["b"] }, mShard2Status := fun _ => some .MIGRATED }

theorem run_exported : (exported.preExecuteCallBack 0 ["k"]).run Stores.answer {} = some (.migratedRoute "b", {}) := by
  have hscope : exported.mRouteInfoHelper.checkIfInClusterScope exported.mMyClusterAddrFormat (targetShard ["k"] "k") =
      some true := by simp [exported, RouteInfoHelper.checkIfInClusterScope]
  change (exported.checkKeys (targetShard ["k"]) ["k"]).run Stores.answer {} = _
  simp only [Info.checkKeys, Info.checkKey, hscope]
  rfl

theorem route_hint_of_delete : exported.HintRight (KVDeleteCommand { entry := ⟨"k", 0⟩ }) (.migratedRoute "b") := by
  refine (route_hint_names_servers (.delete _) run_exported rfl).mpr fun _ key _ => ?_
  split_ifs with hstrays hcode
  · exact .inl rfl
  · exact forall_mem_singleton.mpr ⟨by decide, by decide, by decide⟩
  · exact absurd rfl hcode

/-- A put is not told where its key has gone, and its key on the wrong server gives it a hint that is no server. -/
theorem route_hint_of_put : (exported.preExecuteCallBack 0 ["k"]).run Stores.answer {} = some (.migratedRoute "b", {}) ∧
    routeHint (KVPutCommand { key := "k", value := "v" }) (.migratedRoute "b") = [] ∧
    (Info.preExecuteCallBack { exported with mRouteInfoHelper := { mCluster2ShardIds := fun _ => some [] } } 0
      ["k"]).run Stores.answer {} = some (.wrongRoute "routed to a wrong cluster", {}) ∧
    routeHint (KVPutCommand { key := "k", value := "v" }) (.wrongRoute "routed to a wrong cluster") =
      ["routed to a wrong cluster"] :=
  ⟨run_exported, rfl, rfl, by decide +kernel⟩

end Goblin.ObjectStore
