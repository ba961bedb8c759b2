import Goblin.ObjectManager.RouteVersions
import Goblin.ObjectStore.GlobalInfo

/-! How route infos get from the object manager to a server: the calls that the server makes, the migration
calls that it gets, and the replies to them in any order. -/
namespace Goblin.ObjectStore

open Model Lib Lib.Optimistic ObjectManager Option

/-- The answer of the `i`th request, once it has ended. -/
def answerOf (manager : Manager) (i : ℕ) : Option Answer :=
  match manager.threads i with
  | some ⟨_, _, .ret a⟩ => some a
  | _ => none

/-- What becomes of a call: an error of the transport, an answer of a node that did not serve it, or the
answer to the request. -/
inductive Delivery
  | lost (unavailable : Bool)
  | refused (header : ResponseHeader)
  | answered
  deriving DecidableEq

namespace Delivery

/-- The response object of the call; after an error of the transport it is empty. -/
def response (manager : Manager) (i : ℕ) : Delivery → Option Answer
  | .lost _ => some { header := ⟨.UNKNOWN, ""⟩ }
  | .refused header => some { header }
  | .answered => answerOf manager i

def needRetry (d : Delivery) (code : ResponseCode) : Bool := d = .lost true || code = .NOT_LEADER

end Delivery

/-- `passed` counts the requests that found no refresh in progress and have not sent theirs yet. Calls go by
the number of the request that they make of the manager. -/
structure Server where
  mGlobalInfo : GlobalInfo := {}
  mRefreshingRouteInfo : Bool := false
  mMigrationManager : Bool := false
  passed : ℕ := 0
  routeCalls : List ℕ := []
  startupCall : Option (ℕ × ClusterAddress) := none

/-- `next` is the number of the request if the call is repeated. -/
inductive ServerEvent
  | check (routeVersion : ℕ)
  | send (i : ℕ)
  | routeReply (i : ℕ) (d : Delivery) (next : ℕ)
  | becomeLeader (i : ℕ) (addresses : ClusterAddress)
  | startupReply (i : ℕ) (d : Delivery) (next : ℕ)
  | triggerMigration (i : ℕ) (isLeader : Bool) (status : ClusterStatus) (task : MigrationTask)
  | finishMigration (i : ℕ) (isLeader : Bool) (status : ClusterStatus) (task : MigrationTask)
  deriving DecidableEq

namespace Server

/-- The version that `preExecuteCallBack` compares. -/
def routeVersion (s : Server) : ℕ := s.mGlobalInfo.cached.mRouteInfoHelper.getRouteVersion

/-- The reply to `refreshRouteInfo`. Neither the code nor the version of the answer is looked at. -/
def onRouteReply (s : Server) (i : ℕ) (d : Delivery) (next : ℕ) (resp : Answer) : Server × Option Update :=
  if d.needRetry resp.header.code then ({ s with routeCalls := next :: s.routeCalls.erase i }, none)
  else ({ s with routeCalls := s.routeCalls.erase i, mRefreshingRouteInfo := false },
    some (.onRoute (resp.routeInfo.getD {})))

/-- The loop of `becomeLeaderCallBack`. -/
def onStartupReply (s : Server) (addresses : ClusterAddress) (d : Delivery) (next : ℕ) (resp : Answer) :
    Server × Option Update :=
  if d.needRetry resp.header.code ∨ resp.header.code ≠ .OK then
    ({ s with startupCall := some (next, addresses) }, none)
  else ({ s with startupCall := none },
    some (.onStartup addresses resp.status (resp.routeInfo.getD {}) resp.migrationTask))

def onTriggerMigration (s : Server) (isLeader : Bool) (status : ClusterStatus) (info : RouteInfo)
    (task : MigrationTask) : Server × Option Update :=
  if s.mMigrationManager ∨ !isLeader then (s, none)
  else ({ s with mMigrationManager := true }, some (.onMigration status info task))

def onFinishMigration (s : Server) (isLeader : Bool) (status : ClusterStatus) (info : RouteInfo)
    (task : MigrationTask) : Server × Option Update :=
  let curStatus := s.mGlobalInfo.latest.mStatus
  if !isLeader then (s, none)
  else if curStatus = .EXPORTING ∧ s.mMigrationManager ∨ curStatus = .IMPORTING ∧ !s.mMigrationManager then
    ({ s with mMigrationManager := false }, some (.onMigration status info task))
  else (s, none)

/-- The server after an event, up to the update of its global info. -/
def react (s : Server) (manager : Manager) : ServerEvent → Option (Server × Option Update)
  | .check routeVersion =>
    some (if s.routeVersion < routeVersion ∧ !s.mRefreshingRouteInfo then { s with passed := s.passed + 1 }
      else s, none)
  | .send i =>
    if s.passed = 0 then none
    else some ({ s with passed := s.passed - 1, mRefreshingRouteInfo := true, routeCalls := i :: s.routeCalls },
      none)
  | .routeReply i d next =>
    if i ∈ s.routeCalls then (d.response manager i).map (s.onRouteReply i d next) else none
  | .becomeLeader i addresses =>
    if s.startupCall.isSome then none else some ({ s with startupCall := some (i, addresses) }, none)
  | .startupReply i d next =>
    match s.startupCall with
    | some (j, addresses) =>
      if i = j then (d.response manager i).map (s.onStartupReply addresses d next) else none
    | none => none
  | .triggerMigration i isLeader status task =>
    (answerOf manager i).map fun a => s.onTriggerMigration isLeader status (a.routeInfo.getD {}) task
  | .finishMigration i isLeader status task =>
    (answerOf manager i).map fun a => s.onFinishMigration isLeader status (a.routeInfo.getD {}) task

end Server

/-- `applied` counts the updates of the server's info, and `begun i` is that number when the `i`th request
began. -/
structure System where
  manager : Manager
  server : Server := {}
  applied : ℕ := 0
  begun : ℕ → ℕ := fun _ => 0

inductive SystemEvent
  | manager (act : Act Request ℕ)
  | server (e : ServerEvent)

namespace System

def advance (s : System) (manager : Manager) : Act Request ℕ → System
  | .begin i _ => { s with manager, begun := Function.update s.begun i s.applied }
  | _ => { s with manager }

def commit (s : System) : Server × Option Update → System
  | (server, none) => { s with server }
  | (server, some u) =>
    { s with
      server := { server with mGlobalInfo := server.mGlobalInfo.update u }
      applied := s.applied + 1 }

def step (cfg : RingConfig) (s : System) : SystemEvent → Option System
  | .manager act => (Manager.step cfg s.manager act).map (s.advance · act)
  | .server e => (s.server.react s.manager e).map s.commit

end System

/-- The request of the manager whose answer an event brings. -/
def ServerEvent.origin : ServerEvent → Option ℕ
  | .routeReply i .answered _ => some i
  | .startupReply i .answered _ => some i
  | .triggerMigration i _ _ _ => some i
  | .finishMigration i _ _ _ => some i
  | _ => none

namespace System

/-- The answer has a route info, and none was applied since its request began. -/
def Fresh (s : System) (i : ℕ) : Prop := (s.manager.handsOut i).isSome ∧ s.begun i = s.applied

instance (s : System) (i : ℕ) : Decidable (s.Fresh i) := inferInstanceAs (Decidable (_ ∧ _))

/-- Whatever the server makes an update of is the fresh answer to a request. -/
def Admits (s : System) : SystemEvent → Prop
  | .manager _ => True
  | .server e => ∀ x ∈ s.server.react s.manager e, x.2.isSome → ∃ i ∈ e.origin, s.Fresh i

instance (s : System) : ∀ e, Decidable (s.Admits e)
  | .manager _ => isTrue trivial
  | .server e => inferInstanceAs (Decidable (∀ x ∈ s.server.react s.manager e, _ → ∃ i ∈ e.origin, _))

end System

section React

variable {s s' : Server} {manager : Manager} {e : ServerEvent} {u : Option Update}

theorem handsOut_eq (i : ℕ) : manager.handsOut i = (answerOf manager i).bind Answer.routeInfo := by
  unfold Manager.handsOut answerOf
  match manager.threads i with
  | none | some ⟨_, _, .abort⟩ | some ⟨_, _, .call _ _⟩ => rfl
  | some ⟨_, _, .ret a⟩ => rfl

theorem Server.react_spec (h : s.react manager e = some (s', u)) : s'.mGlobalInfo = s.mGlobalInfo ∧
    ∀ up ∈ u, ∃ resp : Answer, up.route = resp.routeInfo.getD {} ∧
      ∀ i ∈ e.origin, answerOf manager i = some resp := by
  cases e with
  | check routeVersion =>
    simp only [react, Option.some.injEq, Prod.mk.injEq] at h
    obtain ⟨rfl, rfl⟩ := h
    refine ⟨?_, nofun⟩
    split_ifs <;> rfl
  | send i | becomeLeader i addresses =>
    simp only [react] at h
    split_ifs at h
    cases h
    exact ⟨rfl, nofun⟩
  | routeReply i d next =>
    simp only [react] at h
    split_ifs at h
    obtain ⟨resp, hresp, hout⟩ := map_eq_some_iff.mp h
    unfold onRouteReply at hout
    split_ifs at hout
    · cases hout
      exact ⟨rfl, nofun⟩
    · cases hout
      refine ⟨rfl, fun up hup => ⟨resp, by cases hup; rfl, fun j hj => ?_⟩⟩
      cases d <;> cases hj
      exact hresp
  | startupReply i d next =>
    simp only [react] at h
    split at h
    · split_ifs at h
      obtain ⟨resp, hresp, hout⟩ := map_eq_some_iff.mp h
      unfold onStartupReply at hout
      split_ifs at hout
      · cases hout
        exact ⟨rfl, nofun⟩
      · cases hout
        refine ⟨rfl, fun up hup => ⟨resp, by cases hup; rfl, fun j hj => ?_⟩⟩
        cases d <;> cases hj
        exact hresp
    · cases h
  | triggerMigration i isLeader status task =>
    obtain ⟨a, ha, hout⟩ := map_eq_some_iff.mp h
    unfold onTriggerMigration at hout
    split_ifs at hout
    · cases hout
      exact ⟨rfl, nofun⟩
    · cases hout
      exact ⟨rfl, fun up hup => ⟨a, by cases hup; rfl, fun j hj => by cases hj; exact ha⟩⟩
  | finishMigration i isLeader status task =>
    obtain ⟨a, ha, hout⟩ := map_eq_some_iff.mp h
    unfold onFinishMigration at hout
    dsimp only at hout
    split_ifs at hout
    · cases hout
      exact ⟨rfl, nofun⟩
    · cases hout
      exact ⟨rfl, fun up hup => ⟨a, by cases hup; rfl, fun j hj => by cases hj; exact ha⟩⟩
    · cases hout
      exact ⟨rfl, nofun⟩

end React

namespace System

variable {cfg : RingConfig} {s t : System}

/-- The server is never ahead of the manager, nor of the store in which a request began after its last
update. -/
structure Inv (cfg : RingConfig) (s : System) : Prop where
  ordered : Manager.Ordered cfg (fun _ _ => True) s.manager
  behind : s.server.routeVersion ≤ s.manager.store.routeVersion
  begun_le : ∀ i, s.begun i ≤ s.applied
  fresh : ∀ i th, s.manager.threads i = some th → s.begun i = s.applied →
    ∃ s₀, s.manager.stores[th.since]? = some s₀ ∧ s.server.routeVersion ≤ s₀.routeVersion

theorem Inv.initial (store : KVStore) : Inv cfg { manager := { store } } where
  ordered := .initial store
  behind := Nat.zero_le _
  begun_le _ := le_rfl
  fresh := nofun

theorem admits_true (p : Manager) (act : Act Request ℕ) :
    Pool.Admits KVStore.answer KVStore.stamp (fun _ _ => True) p act := by
  cases act with
  | step i =>
    simp only [Pool.Admits]
    split
    · exact .inr trivial
    · trivial
  | begin i r | drop i => trivial

theorem advance_eq (p : Manager) (act : Act Request ℕ) : ∃ begun, s.advance p act = { s with manager := p, begun } ∧
    ∀ i, (∃ r, act = .begin i r) ∧ begun i = s.applied ∨ (∀ r, act ≠ .begin i r) ∧ begun i = s.begun i := by
  cases act with
  | begin i r =>
    refine ⟨_, rfl, fun j => ?_⟩
    by_cases hj : j = i
    · exact .inl ⟨⟨r, hj ▸ rfl⟩, by simp [hj]⟩
    · exact .inr ⟨fun r' h => hj (by cases h; rfl), by simp [hj]⟩
  | step i | drop i => exact ⟨s.begun, rfl, fun _ => .inr ⟨nofun, rfl⟩⟩

theorem Inv.advance (h : Inv cfg s) {act : Act Request ℕ} {p : Manager}
    (hstep : Manager.step cfg s.manager act = some p) : Inv cfg (s.advance p act) := by
  have hordered : Manager.Ordered cfg (fun _ _ => True) p :=
    h.ordered.step (begins_program cfg) (admits_true _ act) hstep
  obtain ⟨rest, hstores⟩ := h.ordered.stores_isPrefix hstep
  have hmem {n : ℕ} {s₀ : KVStore} (hs : s.manager.stores[n]? = some s₀) : p.stores[n]? = some s₀ := by
    rw [← hstores, List.getElem?_append_left (List.getElem?_eq_some_iff.mp hs).1]
    exact hs
  obtain ⟨begun, hadvance, hbegun⟩ := s.advance_eq p act
  rw [hadvance]
  refine ⟨hordered, ?_, fun i => ?_, fun i th hth hfresh => ?_⟩
  · exact h.behind.trans (hordered.routeVersion_le (Pool.past_length_le_of_step hstep)
      (hmem Pool.stores_getElem?) Pool.stores_getElem?)
  · change begun i ≤ s.applied
    obtain ⟨-, hi⟩ | ⟨-, hi⟩ := hbegun i
    · exact hi.le
    · exact hi ▸ h.begun_le i
  · obtain ⟨r, rfl, hsince⟩ | ⟨hother, th₀, hth₀, hsince⟩ := Pool.since_of_step hstep hth
    · exact ⟨_, hsince ▸ hmem Pool.stores_getElem?, h.behind⟩
    · obtain ⟨⟨r, hact⟩, -⟩ | ⟨-, hi⟩ := hbegun i
      · exact absurd hact (hother r)
      · obtain ⟨s₀, hs₀, hle⟩ := h.fresh i th₀ hth₀ (hi.symm.trans hfresh)
        exact ⟨s₀, hsince ▸ hmem hs₀, hle⟩

/-- An update that the condition allows does not lower the version. -/
theorem Inv.commit (h : Inv cfg s) {e : ServerEvent} {x : Server × Option Update}
    (hreact : s.server.react s.manager e = some x) (hadmits : s.Admits (.server e)) :
    Inv cfg (s.commit x) ∧ s.server.routeVersion ≤ (s.commit x).server.routeVersion := by
  obtain ⟨server, u⟩ := x
  obtain ⟨hinfo, hroute⟩ := Server.react_spec hreact
  cases u with
  | none =>
    have hversion : server.routeVersion = s.server.routeVersion := by simp [Server.routeVersion, hinfo]
    refine ⟨⟨h.ordered, ?_, h.begun_le, ?_⟩, hversion.ge⟩
    · exact hversion.trans_le h.behind
    · intro i th hth hfresh
      obtain ⟨s₀, hs₀, hle⟩ := h.fresh i th hth hfresh
      exact ⟨s₀, hs₀, hversion.trans_le hle⟩
  | some u =>
    obtain ⟨i, hi, hsome, hbegun⟩ := hadmits _ hreact rfl
    obtain ⟨resp, hu, horigin⟩ := hroute u rfl
    obtain ⟨info, hhands⟩ := isSome_iff_exists.mp hsome
    have hresp : resp.routeInfo = some info := by
      simpa [handsOut_eq, horigin i hi] using hhands
    obtain ⟨th, n, s₀, m, hth, hn, hs₀, hload, hfill⟩ := h.ordered.exists_store hhands
    have hversion : (s.commit (server, some u)).server.routeVersion = s₀.routeVersion := by
      rw [routeVersion_of_load hload, ← Manager.version_of_fillRouteInfo hfill]
      change (server.mGlobalInfo.cached.update u).mRouteInfoHelper.mRouteInfo.version = info.version
      rw [Info.mRouteInfo_update, hu, hresp, getD_some]
    have hbehind : s₀.routeVersion ≤ s.manager.store.routeVersion := by
      refine h.ordered.routeVersion_le ?_ hs₀ Pool.stores_getElem?
      have hlt := (List.getElem?_eq_some_iff.mp hs₀).1
      rw [Pool.stores_length] at hlt
      exact Nat.lt_succ_iff.mp hlt
    refine ⟨⟨h.ordered, hversion.trans_le hbehind, fun j => (h.begun_le j).trans (Nat.le_succ _), ?_⟩, ?_⟩
    · intro j _ _ hj
      exact absurd hj (Nat.ne_of_lt (Nat.lt_succ_of_le (h.begun_le j)))
    · obtain ⟨s₁, hs₁, hle⟩ := h.fresh i th hth hbegun
      rw [hversion]
      exact hle.trans (h.ordered.routeVersion_le hn hs₁ hs₀)

theorem Inv.step (h : Inv cfg s) {e : SystemEvent} (hadmits : s.Admits e) (hstep : s.step cfg e = some t) :
    Inv cfg t ∧ s.server.routeVersion ≤ t.server.routeVersion := by
  cases e with
  | manager act =>
    obtain ⟨p, hp, rfl⟩ := map_eq_some_iff.mp hstep
    refine ⟨h.advance hp, ?_⟩
    obtain ⟨begun, hadvance, -⟩ := s.advance_eq p act
    rw [hadvance]
  | server e =>
    obtain ⟨x, hx, rfl⟩ := map_eq_some_iff.mp hstep
    exact h.commit hx hadmits

/-- A call of the server comes back without a route info. -/
def Failed (s : System) : SystemEvent → Prop
  | .server (.routeReply i d _) => ∀ resp ∈ d.response s.manager i, resp.routeInfo = none
  | .server (.startupReply i d _) => ∀ resp ∈ d.response s.manager i, resp.routeInfo = none
  | _ => False

theorem not_failed_of_fresh {e : ServerEvent} {i : ℕ} (hi : i ∈ e.origin) (hfresh : s.Fresh i) :
    ¬ s.Failed (.server e) := by
  obtain ⟨info, hinfo⟩ := isSome_iff_exists.mp hfresh.1
  obtain ⟨resp, hresp, hroute⟩ := bind_eq_some_iff.mp ((handsOut_eq i).symm.trans hinfo)
  cases e with
  | routeReply j d next | startupReply j d next =>
    cases d <;> cases hi
    intro hfailed
    cases (hfailed resp hresp).symm.trans hroute
  | check _ | send _ | becomeLeader _ _ | triggerMigration _ _ _ _ | finishMigration _ _ _ _ => exact id

/-- In a run in which the server uses only answers with a route info that no other has overtaken, the
version never decreases, and a call that fails leaves the route info alone. -/
theorem route_version_never_decreases (cfg : RingConfig) {store : KVStore} {as bs : List SystemEvent}
    (hG : Meets (step cfg) Admits { manager := { store } } (as ++ bs))
    (hs : exec (step cfg) { manager := { store } } as = some s) (ht : exec (step cfg) s bs = some t) :
    s.server.routeVersion ≤ t.server.routeVersion ∧
      ∀ e t', t.step cfg e = some t' → t.Admits e → t.Failed e →
        t'.server.mGlobalInfo = t.server.mGlobalInfo := by
  obtain ⟨hGs, hGt⟩ := meets_append hG hs
  have hinv : Inv cfg s := exec_invariant (fun _ _ _ h hadmits hstep => (h.step hadmits hstep).1)
    (.initial store) hGs hs
  let I (q : System) := Inv cfg q ∧ s.server.routeVersion ≤ q.server.routeVersion
  have hI : I t := by
    refine exec_invariant (fun q e q' hq hadmits hstep => ?_) (I := I) ⟨hinv, le_rfl⟩ hGt ht
    obtain ⟨hq', hle⟩ := hq.1.step hadmits hstep
    exact ⟨hq', hq.2.trans hle⟩
  refine ⟨hI.2, fun e t' hstep hadmits hfailed => ?_⟩
  cases e with
  | manager act => exact hfailed.elim
  | server e =>
    obtain ⟨⟨server, u⟩, hx, rfl⟩ := map_eq_some_iff.mp hstep
    cases u with
    | none => exact (Server.react_spec hx).1
    | some u =>
      obtain ⟨i, hi, hfresh⟩ := hadmits _ hx rfl
      exact absurd hfailed (not_failed_of_fresh hi hfresh)

/-- A cluster is added and its server starts: the startup is request 1. -/
def started : List SystemEvent :=
  .server (.becomeLeader 1 ["a"]) :: Manager.onlyCluster.map .manager ++ [.server (.startupReply 1 .answered 0)]

/-- A client with a newer version makes the server ask for the route info: that is request 2. -/
def asked : List SystemEvent := [.server (.check 2), .server (.send 2)]

def refreshed : List SystemEvent :=
  asked ++ Manager.askRoute.map .manager ++ [.server (.routeReply 2 .answered 0)]

theorem refreshed_keeps_version : ∃ s t : System,
    exec (step Manager.twoNodes) { manager := { store := {} } } started = some s ∧
    exec (step Manager.twoNodes) s refreshed = some t ∧
    s.server.routeVersion = 1 ∧ t.applied = 2 ∧ s.server.routeVersion ≤ t.server.routeVersion := by
  have hG : Meets (step Manager.twoNodes) Admits { manager := { store := {} } } (started ++ refreshed) := by
    decide +kernel
  exact ⟨_, _, rfl, rfl, rfl, rfl, (route_version_never_decreases Manager.twoNodes hG rfl rfl).1⟩

/-- The same call runs into its deadline. -/
def timedOut : List SystemEvent := asked ++ [.server (.routeReply 2 (.lost false) 0)]

theorem timedOut_empties_route : ∃ s t : System,
    exec (step Manager.twoNodes) { manager := { store := {} } } started = some s ∧
    exec (step Manager.twoNodes) s timedOut = some t ∧
    s.server.routeVersion = 1 ∧ t.server.routeVersion = 0 ∧
    s.server.mGlobalInfo.cached.mRouteInfoHelper.mRouteInfo.clusterWithShards ≠ [] ∧
    t.server.mGlobalInfo.cached.mRouteInfoHelper.mRouteInfo.clusterWithShards = [] :=
  ⟨_, _, rfl, rfl, rfl, rfl, by decide +kernel, rfl⟩

end System

end Goblin.ObjectStore
