import Goblin.Command.Basic
import Goblin.ObjectStore.GlobalInfo

/-! `preExecuteCallBack`: what a server checks of the route of a request before it executes it. -/
namespace Goblin.ObjectStore

open Model List

def TRX_KEY_PREFIX : String := "/RMSTRX"
def RMSTRX_SHARD_IDX : ShardIdType := 1

/-- `Shard::DEFAULT` -/
def kShardFactor : ℕ := 12

/-- `char` is signed, so a byte is sign extended before it is added. -/
def hashByte (hash : BitVec 64) (c : UInt8) : BitVec 64 :=
  (hash <<< 5) + hash + c.toBitVec.signExtend 64

/-- The argument is a C string: the first zero byte ends it. -/
def simpleHash (str : List UInt8) : BitVec 64 :=
  (str.takeWhile (· ≠ 0)).foldl hashByte 5381

def keyBytes (key : KeyType) : List UInt8 := key.toList.flatMap String.utf8EncodeChar

def keyToShardId (key : KeyType) : ShardIdType :=
  (simpleHash (keyBytes key) &&& BitVec.ofNat 64 (2 ^ kShardFactor - 1)).toNat

def isTrxKey (key : KeyType) : Bool := TRX_KEY_PREFIX.toList.isPrefixOf key.toList

/-- The shard that is looked up for a key of a request. -/
def targetShard (keys : List KeyType) (key : KeyType) : ShardIdType :=
  if keys.all isTrxKey then RMSTRX_SHARD_IDX else keyToShardId key

namespace Info

/-- One turn of the loop over the keys; `none` goes on to the next key. A cluster that is not in the map
makes the lookup throw. -/
def checkKey (info : Info) (key : KeyType) (shardId : ShardIdType) : StoreProg (Option Status) :=
  match info.mRouteInfoHelper.checkIfInClusterScope info.mMyClusterAddrFormat shardId with
  | none => .abort
  | some false =>
    if info.mStatus = .IMPORTING ∧ info.mMigrationInfoHelper.checkIfInMigrationShards shardId then return none
    else return some (.wrongRoute "routed to a wrong cluster")
  | some true =>
    if info.mStatus = .EXPORTING ∧ info.mMigrationInfoHelper.checkIfInMigrationShards shardId then do
      let (s, _) ← readMeta key
      if s.isNotFound then return some (.migratedRoute info.mMigrationInfoHelper.getTargetCluster)
      else return none
    else return none

def checkKeys (info : Info) (shardOf : KeyType → ShardIdType) : List KeyType → StoreProg Status
  | [] => return .ok
  | key :: keys => do
    match ← info.checkKey key (shardOf key) with
    | some status => return status
    | none => info.checkKeys shardOf keys

/-- `keys` are the target keys of the request in the order of their set. A request with a newer version
also makes the server ask for the route info. -/
def preExecuteCallBack (info : Info) (routeVersion : ℕ) (keys : List KeyType) : StoreProg Status :=
  if info.mRouteInfoHelper.getRouteVersion > routeVersion then
    return .clientRouteOutOfDate "client needs to refresh route info"
  else if info.mRouteInfoHelper.getRouteVersion < routeVersion then
    return .serverRouteOutOfDate "server refreshing route, please try again"
  else if info.mStatus = .OUT_OF_SERVICE then return .outOfService "server is not in good state"
  else if info.mRouteInfoHelper.getPartionStrategy ≠ .HASH_MOD then
    return .notSupported "invalid partition strategy"
  else info.checkKeys (targetShard keys) keys

end Info

section Checks

variable {info : Info} {st : Stores} {key : KeyType} {shardId : ShardIdType}

/-- The lookup map has the server's own cluster. -/
def Info.Known (info : Info) : Prop :=
  (info.mRouteInfoHelper.mCluster2ShardIds info.mMyClusterAddrFormat).isSome

/-- The key is in a shard that moves away, and it is gone already. -/
def Info.Redirects (info : Info) (st : Stores) (key : KeyType) (shardId : ShardIdType) : Prop :=
  info.mStatus = .EXPORTING ∧ info.mMigrationInfoHelper.checkIfInMigrationShards shardId = true ∧
    (st.mem.readMeta st.db key).1.isNotFound = true

/-- The key belongs to another cluster and is not on its way here. -/
def Info.Strays (info : Info) (shardId : ShardIdType) : Prop :=
  info.mRouteInfoHelper.checkIfInClusterScope info.mMyClusterAddrFormat shardId = some false ∧
    ¬ (info.mStatus = .IMPORTING ∧ info.mMigrationInfoHelper.checkIfInMigrationShards shardId = true)

instance : Decidable (info.Redirects st key shardId) := inferInstanceAs (Decidable (_ ∧ _))

instance : Decidable (info.Strays shardId) := inferInstanceAs (Decidable (_ ∧ _))

/-- What the check makes of a key: it goes on, or refuses with a status. -/
inductive Info.Verdict (info : Info) (st : Stores) (key : KeyType) (shardId : ShardIdType) : Option Status → Prop
  | passes (hstays : ¬ info.Strays shardId) (hhere : ¬ info.Redirects st key shardId) : Verdict info st key shardId none
  | strays (h : info.Strays shardId) : Verdict info st key shardId (some (.wrongRoute "routed to a wrong cluster"))
  | redirects (hstays : ¬ info.Strays shardId) (h : info.Redirects st key shardId) :
    Verdict info st key shardId (some (.migratedRoute info.mMigrationInfoHelper.getTargetCluster))

theorem Info.checkIfInClusterScope_eq_none :
    info.mRouteInfoHelper.checkIfInClusterScope info.mMyClusterAddrFormat shardId = none ↔ ¬ info.Known := by
  simp [RouteInfoHelper.checkIfInClusterScope, Known]

theorem Info.run_checkKey_unknown (h : ¬ info.Known) :
    (info.checkKey key shardId).run Stores.answer st = none := by
  simp [checkKey, checkIfInClusterScope_eq_none.mpr h]

theorem Info.run_checkKey (h : info.Known) (st : Stores) (key : KeyType) (shardId : ShardIdType) :
    ∃ out, (info.checkKey key shardId).run Stores.answer st = some (out, st) ∧ info.Verdict st key shardId out := by
  unfold checkKey
  match hscope : info.mRouteInfoHelper.checkIfInClusterScope info.mMyClusterAddrFormat shardId with
  | none => exact absurd h (checkIfInClusterScope_eq_none.mp hscope)
  | some false =>
    dsimp only
    split_ifs with hmoves
    · have hhere : ¬ info.Redirects st key shardId := fun hgone => by
        have hstatus := hmoves.1.symm.trans hgone.1
        cases hstatus
      exact ⟨none, rfl, .passes (fun hstrays => hstrays.2 hmoves) hhere⟩
    · exact ⟨_, rfl, .strays ⟨hscope, hmoves⟩⟩
  | some true =>
    have hstays : ¬ info.Strays shardId := fun hstrays => by
      have hfalse := hscope.symm.trans hstrays.1
      cases hfalse
    dsimp only
    split_ifs with hmoves
    · by_cases hs : (st.mem.readMeta st.db key).1.isNotFound = true
      · exact ⟨_, by simp [readMeta, Stores.answer, hs], .redirects hstays ⟨hmoves.1, hmoves.2, hs⟩⟩
      · exact ⟨none, by simp [readMeta, Stores.answer, hs], .passes hstays fun hgone => hs hgone.2.2⟩
    · exact ⟨none, rfl, .passes hstays fun hgone => hmoves ⟨hgone.1, hgone.2.1⟩⟩

theorem Info.run_checkKey_scope
    (h : info.mRouteInfoHelper.checkIfInClusterScope info.mMyClusterAddrFormat shardId = some true) :
    (info.checkKey key shardId).run Stores.answer st = some (none, st) ↔ ¬ info.Redirects st key shardId := by
  unfold checkKey Redirects
  simp only [h]
  by_cases hstatus : info.mStatus = .EXPORTING
  · by_cases hmoves : info.mMigrationInfoHelper.checkIfInMigrationShards shardId = true
    · by_cases hs : (st.mem.readMeta st.db key).1.isNotFound = true <;>
        simp [hstatus, hmoves, hs, readMeta, Stores.answer]
    · simp [hmoves]
  · simp [hstatus]

variable {shardOf : KeyType → ShardIdType} {keys : List KeyType}

theorem Info.run_checkKeys_unknown (h : ¬ info.Known) (hkeys : keys ≠ []) :
    (info.checkKeys shardOf keys).run Stores.answer st = none := by
  obtain ⟨key, keys, rfl⟩ := exists_cons_of_ne_nil hkeys
  simp [checkKeys, run_checkKey_unknown h]

def Info.firstRefused (info : Info) (st : Stores) (shardOf : KeyType → ShardIdType) (keys : List KeyType) :
    Option KeyType :=
  keys.find? fun key => info.Strays (shardOf key) ∨ info.Redirects st key (shardOf key)

/-- The loop ends for a known cluster. If it is meant to serve all of the keys, it is refused only those
that have moved away. -/
theorem Info.run_checkKeys (h : info.Known) (st : Stores) (shardOf : KeyType → ShardIdType) (keys : List KeyType) :
    ∃ status, (info.checkKeys shardOf keys).run Stores.answer st = some (status, st) ∧
      (status = .ok ∨
        ∃ key, info.firstRefused st shardOf keys = some key ∧ info.Verdict st key (shardOf key) (some status)) ∧
      ((∀ key ∈ keys,
          info.mRouteInfoHelper.checkIfInClusterScope info.mMyClusterAddrFormat (shardOf key) = some true) →
        (status.isOK = true ↔ ∀ key ∈ keys, ¬ info.Redirects st key (shardOf key))) := by
  induction keys with
  | nil => exact ⟨.ok, rfl, .inl rfl, by simp⟩
  | cons key keys ih =>
    obtain ⟨out, hout, hverdict⟩ := run_checkKey h st key (shardOf key)
    cases out with
    | some status =>
      have hfirst : info.firstRefused st shardOf (key :: keys) = some key := by
        refine find?_cons_of_pos (decide_eq_true ?_)
        cases hverdict with
        | strays h => exact .inl h
        | redirects _ h => exact .inr h
      refine ⟨status, by simp [checkKeys, hout], .inr ⟨key, hfirst, hverdict⟩, fun hscope => ?_⟩
      have hredirects : info.Redirects st key (shardOf key) := by
        by_contra hno
        rw [(run_checkKey_scope (hscope key mem_cons_self)).mpr hno] at hout
        cases hout
      cases hverdict <;> simp [hredirects, Status.isOK, Status.wrongRoute, Status.migratedRoute]
    | none =>
      obtain ⟨status, hstatus, hcause, hok⟩ := ih
      refine ⟨status, by simp [checkKeys, hout, hstatus], ?_, fun hscope => ?_⟩
      · have hpasses : info.firstRefused st shardOf (key :: keys) = info.firstRefused st shardOf keys := by
          cases hverdict with
          | passes hstays hhere => exact find?_cons_of_neg (by simp [hstays, hhere])
        rwa [hpasses]
      rw [hok fun k hk => hscope k (mem_cons_of_mem key hk), forall_mem_cons]
      have hno := (run_checkKey_scope (hscope key mem_cons_self)).mp hout
      exact ⟨fun hall => ⟨hno, hall⟩, fun hall => hall.2⟩

end Checks

end Goblin.ObjectStore
