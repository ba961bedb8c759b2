import Goblin.Command.Trans
import Goblin.Lib.Lookup
import Goblin.ObjectStore.PreExecute

/-! How the Java client routes its requests: `ShardingInfo` and `commitTransaction`, and that the cluster
that it picks is one that takes the request. -/
namespace Goblin.Client

open Model ObjectStore Lib List Option

structure ShardCluster where
  shardInfo : List ShardIdType
  cluster : String
  deriving DecidableEq, Repr

structure RouteResult where
  routeVersion : ℕ := 0
  shardFactor : ℕ := 0
  shardClusters : List ShardCluster := []
  deriving DecidableEq, Repr

section PayloadConverters

/-- `Character.digit` for the radix 10, as far as it is ASCII. -/
def asciiDigit (c : Char) : Option ℕ := if c.isDigit then some (c.toNat - '0'.toNat) else none

-- `Character.digit`, which knows the digits of all scripts
variable (digit : Char → Option ℕ)

def parseDigits (digits : List Char) : Option ℤ :=
  if digits = [] then none else digits.foldlM (fun n c => (digit c).map fun d => 10 * n + (d : ℤ)) 0

/-- `Integer.valueOf`; `none` stands for the exception. -/
def integerValueOf (text : List Char) : Option ℤ := do
  let n ← match text with
    | '-' :: digits => (parseDigits digit digits).map Neg.neg
    | '+' :: digits => parseDigits digit digits
    | digits => parseDigits digit digits
  if -2 ^ 31 ≤ n ∧ n < 2 ^ 31 then some n else none

/-- The number before the first `@`. -/
def serverId (address : String) : Option ℤ := integerValueOf digit (address.toList.takeWhile (· ≠ '@'))

/-- `none` stands for an exception, and for the null that `refreshClientMap` then throws on. Nothing is
compared, hence no number is parsed, in a list of one. -/
def toClusterAddress (servers : ClusterAddress) : Option String :=
  if servers.any fun address => !address.toList.contains '@' then none
  else if servers.length ≤ 1 then some (",".intercalate servers)
  else do
    let keyed ← servers.mapM fun address => (serverId digit address).map (·, address)
    return ",".intercalate ((keyed.insertionSort (·.1 ≤ ·.1)).map Prod.snd)

def toShardCluster (c : ClusterWithShardSet) : Option ShardCluster :=
  (toClusterAddress digit c.cluster).map (⟨c.shards, ·⟩)

def toRouteResponse (info : RouteInfo) : Option RouteResult :=
  if info.strategy ≠ .HASH_MOD then none
  else (info.clusterWithShards.mapM (toShardCluster digit)).map (⟨info.version, kShardFactor, ·⟩)

end PayloadConverters

/-- The addresses for which there is a client cover those of the route info. -/
structure ShardingInfo where
  routeInfo : RouteResult := {}
  clientMap : List String := []
  hasClients : ∀ c ∈ routeInfo.shardClusters, c.cluster ∈ clientMap := by simp

/-- A `long` wraps around like the server's `uint64_t`, and a Java `byte` is signed like its `char`. -/
def hash (key : KeyType) : BitVec 64 := (keyBytes key).foldl hashByte 5381 &&& 0xFFFFFFFF

namespace ShardingInfo

def refreshClientMap (s : ShardingInfo) (newRouteInfo : RouteResult) : ShardingInfo :=
  if newRouteInfo.routeVersion ≤ s.routeInfo.routeVersion then s
  else
    { routeInfo := newRouteInfo
      clientMap := newRouteInfo.shardClusters.map ShardCluster.cluster
      hasClients := fun _ hc => mem_map_of_mem hc }

def hashMod (s : ShardingInfo) (key : KeyType) : ShardIdType := (hash key).toNat % 2 ^ s.routeInfo.shardFactor

def modKey (s : ShardingInfo) (key : KeyType) : ShardIdType :=
  if isTrxKey key then RMSTRX_SHARD_IDX else s.hashMod key

def getShardingClient (s : ShardingInfo) (key : KeyType) : Option ShardCluster :=
  s.routeInfo.shardClusters.find? fun c => c.cluster ∈ s.clientMap ∧ s.modKey key ∈ c.shardInfo

def isInSameShard (s : ShardingInfo) (keys : List KeyType) : Bool :=
  keys.all isTrxKey ||
    s.routeInfo.shardClusters.any fun c => (keys.map s.hashMod).all (· ∈ c.shardInfo)

end ShardingInfo

/-- The entries of a transaction; plain read and write entries pass the check of the keys and are refused
when the request is built. -/
inductive AbstractEntry
  | putRequest (e : WriteEntry)
  | getRequest (e : ReadEntry)
  | deleteRequest (e : RemoveEntry)
  | writeEntry (key : KeyType)
  | readEntry (key : KeyType)
  | other
  deriving DecidableEq, Repr

/-- A request may be null, and a precondition of another class counts as unset. -/
structure MiniTransaction where
  id : ℕ
  preconds : List Precondition := []
  requests : List (Option AbstractEntry)
  allowStale : Bool := false

def AbstractEntry.key : AbstractEntry → Option KeyType
  | .putRequest e => some e.key
  | .getRequest e => some e.key
  | .deleteRequest e => some e.key
  | .writeEntry key => some key
  | .readEntry key => some key
  | .other => none

def toReadWriteEntry : Option AbstractEntry → Option Entry
  | some (.putRequest e) => some (.write e)
  | some (.getRequest e) => some (.read e)
  | some (.deleteRequest e) => some (.remove e)
  | _ => none

def toKvTransPrecond (c : Precondition) : Option Precondition := if c = .unset then none else some c

/-- Reads and removals are read entries. -/
def isReadEntry : Entry → Bool
  | .read _ | .remove _ => true
  | _ => false

def toKvTransRequest (trans : MiniTransaction) : Option TransRequest := do
  let preconds ← trans.preconds.mapM toKvTransPrecond
  let entries ← trans.requests.mapM toReadWriteEntry
  if trans.allowStale ∧ !entries.all isReadEntry then none
  else return { preconds, entries, isMetaReturned := true, allowStale := trans.allowStale }

inductive GoblinException
  | invalidRequest (message : String)
  | general (message : String)
  deriving DecidableEq, Repr

/-- A request on its way to a cluster. -/
structure Sent where
  client : ShardCluster
  routeVersion : ℕ
  request : TransRequest

/-- Null requests have no key here. -/
def MiniTransaction.keyList (trans : MiniTransaction) : Option (List KeyType) :=
  trans.requests.reduceOption.mapM AbstractEntry.key

/-- Up to the first call of the cluster client. -/
def ShardingInfo.commitTransaction (s : ShardingInfo) (transactionMap : List ℕ) (trans : MiniTransaction) :
    Except GoblinException Sent :=
  if trans.id ∉ transactionMap ∨ trans.requests = [] then .error (.invalidRequest "invalid transaction")
  else match trans.keyList with
  | none => .error (.invalidRequest "invalid entry")
  | some keyList =>
    if !s.isInSameShard keyList then
      .error (.invalidRequest "keys cross clusters in one transaction not supported")
    else
      let keyForRouting := keyList.headD "dummyForRouting"
      match s.getShardingClient keyForRouting with
      | none => .error (.general ("No goblin cluster is available for key " ++ keyForRouting))
      | some client =>
        match toKvTransRequest trans with
        | none => .error (.general "toKvTransRequest")
        | some request => .ok ⟨client, s.routeInfo.routeVersion, request⟩

section Hash

theorem hash_mod_eq_keyToShardId {key : KeyType} (h : 0 ∉ keyBytes key) :
    (hash key).toNat % 2 ^ kShardFactor = keyToShardId key := by
  have hall : (keyBytes key).takeWhile (· ≠ 0) = keyBytes key :=
    takeWhile_eq_self_iff.mpr fun b hb => decide_eq_true fun hzero => h (hzero ▸ hb)
  have hlow (n : ℕ) : (n &&& (2 ^ 32 - 1)) % 2 ^ 12 = n &&& (2 ^ 12 - 1) := by
    rw [Nat.and_two_pow_sub_one_eq_mod, Nat.and_two_pow_sub_one_eq_mod, Nat.mod_mod_of_dvd]
    decide
  unfold hash keyToShardId simpleHash kShardFactor
  rw [hall, BitVec.toNat_and, BitVec.toNat_and]
  exact hlow _

end Hash

/-- Each of the shards belongs to one cluster. -/
structure AssignsEach (route : RouteInfo) : Prop where
  exists_cluster : ∀ shard < 2 ^ kShardFactor, ∃ cluster, route.Assigns cluster shard
  unique : ∀ shard cluster cluster', route.Assigns cluster shard → route.Assigns cluster' shard →
    cluster = cluster'

/-- A server of the cluster whose last route info is this one accepts the request, unless it is out of
service or a key was moved away. -/
def Serves (route : RouteInfo) (cluster : ClusterAddressFormat) (routeVersion : ℕ) (keys : List KeyType) : Prop :=
  ∀ (i : Info) (u : Update) (st : Stores), u.route = route → (i.update u).mMyClusterAddrFormat = cluster →
    (i.update u).mStatus ≠ .OUT_OF_SERVICE →
    (∀ key ∈ keys, ¬ (i.update u).Redirects st key (targetShard keys key)) →
    ∃ status, ((i.update u).preExecuteCallBack routeVersion keys).run Stores.answer st = some (status, st) ∧
      status.isOK = true

section Server

variable {route : RouteInfo} {cluster : ClusterAddressFormat} {keys : List KeyType}

theorem known_update {i : Info} {u : Update} {shard : ShardIdType}
    (h : u.route.Assigns (i.update u).mMyClusterAddrFormat shard) : (i.update u).Known := by
  cases u <;> exact (RouteInfoHelper.isSome_updateRouteInfo _ _).mpr (.inl ⟨shard, h⟩)

theorem serves_of_assigns (hstrategy : route.strategy = .HASH_MOD) {shard : ShardIdType}
    (hshard : route.Assigns cluster shard)
    (howns : ∀ key ∈ keys, route.Assigns cluster (targetShard keys key)) :
    Serves route cluster route.version keys := by
  rintro i u st rfl rfl hservice hstays
  obtain ⟨status, hrun, -, haccepts⟩ := Info.run_checkKeys (known_update hshard) st (targetShard keys) keys
  refine ⟨status, ?_, (haccepts fun key hkey => (i.scope_update u).mpr (.inl (howns key hkey))).mpr hstays⟩
  have hroute := i.mRouteInfo_update u
  simpa [Info.preExecuteCallBack, RouteInfoHelper.getRouteVersion, RouteInfoHelper.getPartionStrategy, hroute,
    hservice, hstrategy] using hrun

end Server

section Client

variable {digit : Char → Option ℕ} {s : ShardingInfo} {route : RouteInfo} {key : KeyType}

theorem toRouteResponse_fields {r : RouteResult} (h : toRouteResponse digit route = some r) :
    route.strategy = .HASH_MOD ∧ r.routeVersion = route.version ∧ r.shardFactor = kShardFactor ∧
      route.clusterWithShards.mapM (toShardCluster digit) = some r.shardClusters := by
  unfold toRouteResponse at h
  split_ifs at h with hstrategy
  obtain ⟨clusters, hclusters, rfl⟩ := map_eq_some_iff.mp h
  exact ⟨not_not.mp hstrategy, rfl, rfl, hclusters⟩

theorem mem_shardClusters (h : toRouteResponse digit route = some s.routeInfo) {c : ShardCluster} :
    c ∈ s.routeInfo.shardClusters ↔ ∃ e ∈ route.clusterWithShards, toShardCluster digit e = some c := by
  have hmap := (toRouteResponse_fields h).2.2.2
  have hmem : some c ∈ s.routeInfo.shardClusters.map some ↔
      some c ∈ route.clusterWithShards.map (toShardCluster digit) := by
    rw [← mapM_eq_some_iff.mp hmap]
  simpa using hmem

theorem hashMod_eq_keyToShardId (h : toRouteResponse digit route = some s.routeInfo) (hkey : 0 ∉ keyBytes key) :
    s.hashMod key = keyToShardId key := by
  rw [ShardingInfo.hashMod, (toRouteResponse_fields h).2.2.1, hash_mod_eq_keyToShardId hkey]

theorem modKey_eq_targetShard (h : toRouteResponse digit route = some s.routeInfo) (hkey : 0 ∉ keyBytes key) :
    s.modKey key = targetShard [key] key := by
  simp [ShardingInfo.modKey, targetShard, hashMod_eq_keyToShardId h hkey]

theorem modKey_lt (h : toRouteResponse digit route = some s.routeInfo) (key : KeyType) :
    s.modKey key < 2 ^ kShardFactor := by
  unfold ShardingInfo.modKey
  split_ifs
  · decide
  · rw [ShardingInfo.hashMod, (toRouteResponse_fields h).2.2.1]
    exact Nat.mod_lt _ (by decide)

theorem toShardCluster_shards {e : ClusterWithShardSet} {c : ShardCluster} (h : toShardCluster digit e = some c) :
    c.shardInfo = e.shards := by
  obtain ⟨address, -, rfl⟩ := map_eq_some_iff.mp h
  rfl

theorem getShardingClient_found (h : toRouteResponse digit route = some s.routeInfo) {c : ShardCluster}
    (hc : s.getShardingClient key = some c) :
    ∃ e ∈ route.clusterWithShards, toShardCluster digit e = some c ∧ s.modKey key ∈ e.shards := by
  obtain ⟨e, he, hec⟩ := (mem_shardClusters h).mp (mem_of_find?_eq_some hc)
  have hmod := find?_some hc
  simp only [decide_eq_true_eq] at hmod
  exact ⟨e, he, hec, toShardCluster_shards hec ▸ hmod.2⟩

theorem getShardingClient_isSome (h : toRouteResponse digit route = some s.routeInfo) (heach : AssignsEach route)
    (key : KeyType) : ∃ c, s.getShardingClient key = some c := by
  obtain ⟨-, e, he, -, hshard⟩ := heach.exists_cluster _ (modKey_lt h key)
  obtain ⟨c, hec⟩ : ∃ c, toShardCluster digit e = some c := by
    have hmem : toShardCluster digit e ∈ s.routeInfo.shardClusters.map some :=
      mapM_eq_some_iff.mp (toRouteResponse_fields h).2.2.2 ▸ mem_map_of_mem he
    obtain ⟨c, -, hc⟩ := mem_map.mp hmem
    exact ⟨c, hc.symm⟩
  have hc : c ∈ s.routeInfo.shardClusters := (mem_shardClusters h).mpr ⟨e, he, hec⟩
  refine isSome_iff_exists.mp (find?_isSome.mpr ⟨c, hc, ?_⟩)
  simpa [toShardCluster_shards hec, hshard] using s.hasClients c hc

theorem assigns_of_mem {e : ClusterWithShardSet} {shard : ShardIdType} (he : e ∈ route.clusterWithShards)
    (hshard : shard ∈ e.shards) : route.Assigns (clusterToAddressFormat e.cluster) shard :=
  ⟨e, he, rfl, hshard⟩

/-- The keys of a transaction, those of its preconditions first. -/
def MiniTransaction.allKeys (trans : MiniTransaction) : List KeyType :=
  trans.preconds.flatMap KVTransCommand.condKey ++ trans.keyList.getD []

/-- No key has a zero byte; the keys are all transaction keys or the first entry's is not; and the check of
the keys of the entries would also pass with those of the preconditions. -/
structure Routable (s : ShardingInfo) (trans : MiniTransaction) : Prop where
  noZero : ∀ key ∈ trans.allKeys, 0 ∉ keyBytes key
  trx : (∀ key ∈ trans.allKeys, isTrxKey key = true) ∨
    ∀ key ∈ (trans.keyList.getD []).head?, isTrxKey key = false
  sameShard : s.isInSameShard trans.allKeys = true

theorem keyList_of_entries {requests : List (Option AbstractEntry)} {entries : List Entry}
    (h : requests.mapM toReadWriteEntry = some entries) :
    requests.reduceOption.mapM AbstractEntry.key = entries.mapM KVTransCommand.entryKey ∧
      (entries.mapM KVTransCommand.entryKey).any (·.length = requests.length) := by
  induction requests generalizing entries with
  | nil =>
    obtain rfl : entries = [] := by simpa [eq_comm] using h
    exact ⟨rfl, rfl⟩
  | cons request requests ih =>
    obtain ⟨entry, hentry, hrest⟩ := bind_eq_some_iff.mp (by rwa [mapM_cons] at h)
    obtain ⟨entries', hentries', hcons⟩ := bind_eq_some_iff.mp hrest
    cases hcons
    obtain ⟨hkeys, hlength⟩ := ih hentries'
    obtain ⟨keys, hkeys', hlength⟩ := (any_eq_true _ _).mp hlength
    have hlength : keys.length = requests.length := by simpa using hlength
    rw [hkeys'] at hkeys
    cases request with
    | none => cases hentry
    | some request =>
      cases request with
      | writeEntry key | readEntry key | other => cases hentry
      | putRequest e | getRequest e | deleteRequest e =>
        cases hentry
        simp [reduceOption_cons_of_some, mapM_cons, AbstractEntry.key, KVTransCommand.entryKey, hkeys,
          hkeys', hlength]

theorem toKvTransRequest_fields {trans : MiniTransaction} {request : TransRequest}
    (h : toKvTransRequest trans = some request) :
    request.preconds = trans.preconds ∧ trans.requests.mapM toReadWriteEntry = some request.entries := by
  obtain ⟨preconds, hpreconds, h⟩ := bind_eq_some_iff.mp h
  obtain ⟨entries, hentries, h⟩ := bind_eq_some_iff.mp h
  split_ifs at h
  cases h
  refine ⟨?_, hentries⟩
  have hsame : ∀ c d, toKvTransPrecond c = some d → d = c := by
    intro c d hd
    unfold toKvTransPrecond at hd
    split_ifs at hd
    exact (Option.some.inj hd).symm
  have hmap := mapM_eq_some_iff.mp hpreconds
  refine ext_getElem (by simpa using congrArg List.length hmap.symm) fun n hn hn' => ?_
  exact hsame _ _ (by simpa [hn, hn'] using congrArg (·[n]?) hmap)

theorem commitTransaction_ok {transactionMap : List ℕ} {trans : MiniTransaction} {sent : Sent}
    (h : s.commitTransaction transactionMap trans = .ok sent) :
    ∃ key keys, trans.keyList = some (key :: keys) ∧ s.getShardingClient key = some sent.client ∧
      sent.routeVersion = s.routeInfo.routeVersion ∧
      KVTransCommand.getTargetKeys sent.request = some trans.allKeys := by
  unfold ShardingInfo.commitTransaction at h
  split_ifs at h with hinvalid
  split at h
  · cases h
  rename_i keyList hkeyList
  split_ifs at h
  dsimp only at h
  split at h
  · cases h
  rename_i client hclient
  split at h
  · cases h
  rename_i request hrequest
  cases h
  obtain ⟨hpreconds, hentries⟩ := toKvTransRequest_fields hrequest
  obtain ⟨hsame, hlength⟩ := keyList_of_entries hentries
  have hentryKeys : request.entries.mapM KVTransCommand.entryKey = some keyList := hsame.symm.trans hkeyList
  rw [hentryKeys] at hlength
  cases keyList with
  | nil =>
    have hnil : trans.requests = [] := length_eq_zero_iff.mp (by simpa [eq_comm] using hlength)
    exact absurd (.inr hnil) hinvalid
  | cons key keys =>
    refine ⟨key, keys, hkeyList, hclient, rfl, ?_⟩
    simp [KVTransCommand.getTargetKeys, hentryKeys, MiniTransaction.allKeys, hkeyList, hpreconds]

theorem targetShard_congr {keys keys' : List KeyType} (h : ∀ key, key ∈ keys ↔ key ∈ keys') (key : KeyType) :
    targetShard keys key = targetShard keys' key := by
  have hall : keys.all isTrxKey = keys'.all isTrxKey := by
    rw [Bool.eq_iff_iff, List.all_eq_true, List.all_eq_true]
    exact forall_congr' fun key => by rw [h]
  rw [targetShard, hall, targetShard]

theorem Routable.assigns {trans : MiniTransaction} (h : Routable s trans)
    (hroute : toRouteResponse digit route = some s.routeInfo) (heach : AssignsEach route) {keys : List KeyType}
    (hkeyList : trans.keyList = some (key :: keys)) {cluster : ClusterAddressFormat}
    (hcluster : route.Assigns cluster (s.modKey key)) :
    ∀ k ∈ trans.allKeys, route.Assigns cluster (targetShard trans.allKeys k) := by
  intro k hk
  have hkey : key ∈ trans.allKeys := by simp [MiniTransaction.allKeys, hkeyList]
  by_cases hall : trans.allKeys.all isTrxKey = true
  · have htrx : isTrxKey key = true := all_eq_true.mp hall key hkey
    rw [ShardingInfo.modKey, if_pos htrx] at hcluster
    rwa [targetShard, if_pos hall]
  · have hfirst : isTrxKey key = false := by
      rcases h.trx with htrx | hfirst
      · exact absurd (all_eq_true.mpr htrx) hall
      · exact hfirst key (by simp [hkeyList])
    obtain ⟨c, hc, hshards⟩ : ∃ c ∈ s.routeInfo.shardClusters,
        ∀ k ∈ trans.allKeys, s.hashMod k ∈ c.shardInfo := by
      simpa [ShardingInfo.isInSameShard, hall] using h.sameShard
    obtain ⟨e, he, hec⟩ := (mem_shardClusters hroute).mp hc
    rw [toShardCluster_shards hec] at hshards
    rw [ShardingInfo.modKey, if_neg (by simp [hfirst])] at hcluster
    obtain rfl := heach.unique _ _ _ hcluster (assigns_of_mem he (hshards key hkey))
    rw [targetShard, if_neg hall, ← hashMod_eq_keyToShardId hroute (h.noZero k hk)]
    exact assigns_of_mem he (hshards k hk)

/-- Client and server agree, for keys without a zero byte, on the shard of a key; the client finds a cluster
for it, and the cluster serves it. A transaction that meets the condition and passes the client's checks
goes to a cluster that serves all of its keys, in whatever order the server has them. -/
theorem routed_cluster_serves (hroute : toRouteResponse digit route = some s.routeInfo) (heach : AssignsEach route) :
    (∀ key, 0 ∉ keyBytes key → s.hashMod key = keyToShardId key ∧ s.modKey key = targetShard [key] key ∧
      ∃ e ∈ route.clusterWithShards, s.getShardingClient key = toShardCluster digit e ∧
        Serves route (clusterToAddressFormat e.cluster) s.routeInfo.routeVersion [key]) ∧
    ∀ transactionMap trans sent, s.commitTransaction transactionMap trans = .ok sent → Routable s trans →
      ∃ e ∈ route.clusterWithShards, toShardCluster digit e = some sent.client ∧
        ∃ targetKeys, KVTransCommand.getTargetKeys sent.request = some targetKeys ∧
          ∀ keys, (∀ key, key ∈ keys ↔ key ∈ targetKeys) →
            Serves route (clusterToAddressFormat e.cluster) sent.routeVersion keys := by
  obtain ⟨hstrategy, hversion, -, -⟩ := toRouteResponse_fields hroute
  refine ⟨fun key hkey => ?_, fun transactionMap trans sent hsent hroutable => ?_⟩
  · have hmod := modKey_eq_targetShard hroute hkey
    refine ⟨hashMod_eq_keyToShardId hroute hkey, hmod, ?_⟩
    obtain ⟨c, hc⟩ := getShardingClient_isSome hroute heach key
    obtain ⟨e, he, hec, hshard⟩ := getShardingClient_found hroute hc
    refine ⟨e, he, hc.trans hec.symm, hversion ▸ ?_⟩
    have hassigns := assigns_of_mem he hshard
    refine serves_of_assigns hstrategy hassigns fun k hk => ?_
    obtain rfl := mem_singleton.mp hk
    rwa [← hmod]
  · obtain ⟨key, keys, hkeyList, hclient, hsentVersion, htargets⟩ := commitTransaction_ok hsent
    obtain ⟨e, he, hec, hshard⟩ := getShardingClient_found hroute hclient
    have hassigns := assigns_of_mem he hshard
    refine ⟨e, he, hec, _, htargets, fun keys' hsame => ?_⟩
    rw [hsentVersion, hversion]
    refine serves_of_assigns hstrategy hassigns fun k hk => ?_
    rw [targetShard_congr hsame]
    exact hroutable.assigns hroute heach hkeyList hassigns k ((hsame k).mp hk)

end Client

/-- The shard of "a" is the last one of the first cluster, that of "b" the first one of the second. -/
def splitRoute : RouteInfo :=
  { version := 1, clusterWithShards := [⟨List.range 1543, ["1@a"]⟩, ⟨List.range' 1543 2553, ["1@b"]⟩] }

def splitSharding : ShardingInfo :=
  ShardingInfo.refreshClientMap {}
    ⟨1, kShardFactor, [⟨List.range 1543, "1@a"⟩, ⟨List.range' 1543 2553, "1@b"⟩]⟩

theorem splitRoute_assigns {cluster : ClusterAddressFormat} {shard : ShardIdType} :
    splitRoute.Assigns cluster shard ↔
      "1@a" = cluster ∧ shard < 1543 ∨ "1@b" = cluster ∧ 1543 ≤ shard ∧ shard < 4096 := by
  simp only [RouteInfo.Assigns, splitRoute, mem_cons, not_mem_nil, or_false, exists_eq_or_imp,
    exists_eq_left, mem_range, mem_range'_1, clusterToAddressFormat, foldl_nil]

theorem splitRoute_assignsEach : AssignsEach splitRoute where
  exists_cluster shard hshard := by
    have hshard : shard < 4096 := hshard
    by_cases h : shard < 1543
    · exact ⟨"1@a", splitRoute_assigns.mpr (.inl ⟨rfl, h⟩)⟩
    · exact ⟨"1@b", splitRoute_assigns.mpr (.inr ⟨rfl, not_lt.mp h, hshard⟩)⟩
  unique shard cluster cluster' h h' := by
    obtain ⟨rfl, hlt⟩ | ⟨rfl, hge, -⟩ := splitRoute_assigns.mp h <;>
      obtain ⟨rfl, hlt'⟩ | ⟨rfl, hge', -⟩ := splitRoute_assigns.mp h'
    · rfl
    · exact absurd hlt (not_lt.mpr hge')
    · exact absurd hlt' (not_lt.mpr hge)
    · rfl

/-- Puts "a" on condition that another key does not exist. -/
def putUnless (key : KeyType) : MiniTransaction :=
  { id := 1, preconds := [.existCond key false], requests := [some (.putRequest { key := "a", value := "v" })] }

theorem putUnless_served : ∃ sent, splitSharding.commitTransaction [1] (putUnless "a") = .ok sent ∧
    ∃ e ∈ splitRoute.clusterWithShards, toShardCluster asciiDigit e = some sent.client ∧
      ∃ targetKeys, KVTransCommand.getTargetKeys sent.request = some targetKeys ∧
        ∀ keys, (∀ key, key ∈ keys ↔ key ∈ targetKeys) →
          Serves splitRoute (clusterToAddressFormat e.cluster) sent.routeVersion keys := by
  have hsome : (splitSharding.commitTransaction [1] (putUnless "a")).toOption.isSome = true := by decide +kernel
  obtain ⟨sent, hsent⟩ := isSome_iff_exists.mp hsome
  replace hsent := ok_of_toOption hsent
  refine ⟨sent, hsent, (routed_cluster_serves (by decide +kernel) splitRoute_assignsEach).2 [1] _ sent hsent ?_⟩
  exact ⟨by decide +kernel, .inr (by decide +kernel), by decide +kernel⟩

/-- The server of the first cluster, started with the same route info. -/
def splitServer : Info := Info.update {} (.onStartup ["1@a"] .IN_SERVICE splitRoute {})

theorem putUnless_routed_wrong : AssignsEach splitRoute ∧
    toRouteResponse asciiDigit splitRoute = some splitSharding.routeInfo ∧
    ∃ sent, splitSharding.commitTransaction [1] (putUnless "b") = .ok sent ∧ sent.client.cluster = "1@a" ∧
      KVTransCommand.getTargetKeys sent.request = some ["b", "a"] ∧
      ((splitServer.preExecuteCallBack sent.routeVersion ["a", "b"]).run Stores.answer {}).map Prod.fst =
        some (.wrongRoute "routed to a wrong cluster") := by
  have hany : ((splitSharding.commitTransaction [1] (putUnless "b")).toOption.any fun sent =>
      sent.client.cluster = "1@a" ∧ KVTransCommand.getTargetKeys sent.request = some ["b", "a"] ∧
        ((splitServer.preExecuteCallBack sent.routeVersion ["a", "b"]).run Stores.answer {}).map Prod.fst =
          some (.wrongRoute "routed to a wrong cluster")) = true := by
    decide +kernel
  obtain ⟨sent, hsent, hprops⟩ := (any_eq_true _ _).mp hany
  exact ⟨splitRoute_assignsEach, by decide +kernel, sent, ok_of_toOption hsent, of_decide_eq_true hprops⟩

end Goblin.Client
