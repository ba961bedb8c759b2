import Goblin.Client.Responses
import Goblin.Lib.Run

/-! The clients of `RaftClusterClient`: which member stands at which position of the pool. -/
namespace Goblin.Client.RaftClusterClient

open Lib List Option

/-- The address `INSTANCEID@HOST:PORT` that a client was built from. -/
structure Stub where
  instanceId : String
  host : String
  port : ℕ
  deriving DecidableEq, Repr

/-- What the methods of strings take from `java.lang.Character`; the tables of Unicode are a parameter. -/
structure Characters where
  toUpperCase : Char → Char
  toLowerCase : Char → Char
  isWhitespace : Char → Bool

namespace Characters

def ascii : Characters := ⟨Char.toUpper, Char.toLower, Char.isWhitespace⟩

/-- Characters that are equal or have one capital also have one small letter of their capital. -/
def equalsIgnoreCase (tables : Characters) (s t : String) : Bool :=
  s.toList.map (tables.toLowerCase ∘ tables.toUpperCase) = t.toList.map (tables.toLowerCase ∘ tables.toUpperCase)

def isBlank (tables : Characters) (s : String) : Bool := s.toList.all tables.isWhitespace

end Characters

structure Pool where
  grpcClients : List Stub
  leaderIndex : ℕ := 0
  deriving DecidableEq, Repr

namespace Pool

def findIdxFromInstanceId (tables : Characters) (p : Pool) (id : String) : Option ℕ :=
  p.grpcClients.findIdx? fun c => tables.equalsIgnoreCase id c.instanceId

/-- What the pool takes over from `LeaderOnlyClientPool`. -/
def leaders (p : Pool) : LeaderOnlyClientPool := ⟨p.grpcClients.length, p.leaderIndex⟩

def leaderHint (tables : Characters) (p : Pool) (hint : String) : Pool :=
  { p with leaderIndex := (p.leaders.leaderHint (p.findIdxFromInstanceId tables hint)).leaderIndex }

def refresh (p : Pool) (index : ℕ) (c : Stub) : Pool := { p with grpcClients := p.grpcClients.set index c }

/-- The new address begins with the number of the position. `connects` says that the new client knows a version. -/
def refreshIP (tables : Characters) (p : Pool) (index : Option ℕ) (ip : String) (connects : Bool) : Option Pool :=
  if tables.isBlank ip then some p
  else do
    -- there is no client at -1
    let i ← index
    let oldClient ← p.grpcClients[i]?
    if oldClient.host = ip ∨ connects = false then return p
    else return p.refresh i ⟨toString (i + 1), ip, oldClient.port⟩

/-- Exceptions are caught: the pool stays as it is. -/
def tryRefreshClient (tables : Characters) (p : Pool) (index : ℕ) (resolved : List Stub) (connects : Bool) : Pool :=
  match resolved[index]?, p.grpcClients[index]? with
  | some c, some existing =>
    if (tables.equalsIgnoreCase existing.instanceId c.instanceId ∧ tables.equalsIgnoreCase existing.host c.host ∧
        existing.port = c.port) ∨ connects = false then p
    else p.refresh index c
  | _, _ => p

def markDown (p : Pool) (index : ℕ) : Pool := { p with leaderIndex := (p.leaders.markDown index).leaderIndex }

end Pool

/-- An answer that another member leads, or an instance that cannot be reached while the cluster info is
resolved to `resolved`. -/
inductive Event
  | redirect (hint ip : String) (connects : Bool)
  | unavailable (index : ℕ) (resolved : List Stub) (connects : Bool)

/-- No result stands for an index error. -/
def step (tables : Characters) (p : Pool) : Event → Option Pool
  | .redirect hint ip connects =>
    (p.leaderHint tables hint).refreshIP tables (p.findIdxFromInstanceId tables hint) ip connects
  | .unavailable index resolved connects =>
    some ((p.tryRefreshClient tables index resolved connects).markDown index)

/-- What is asked of an event in the state in which it comes: a leader ip comes for a member of the pool, which has the
ip already, has the number of its position as its id or cannot be connected to; and a client is replaced by one that is
resolved to the same id. -/
def Event.Keeps (tables : Characters) (p : Pool) : Event → Prop
  | .redirect hint ip connects => tables.isBlank ip = true ∨
      ∃ i c, p.findIdxFromInstanceId tables hint = some i ∧ p.grpcClients[i]? = some c ∧
        (c.host = ip ∨ connects = false ∨ c.instanceId = toString (i + 1))
  | .unavailable index resolved connects => connects = false ∨
      ∀ c existing, resolved[index]? = some c → p.grpcClients[index]? = some existing →
        existing.instanceId = c.instanceId ∨ (tables.equalsIgnoreCase existing.instanceId c.instanceId ∧
          tables.equalsIgnoreCase existing.host c.host ∧ existing.port = c.port)

/-- Each event keeps the ids of the state in which it comes. -/
def KeepsAll (tables : Characters) : Pool → List Event → Prop
  | _, [] => True
  | p, e :: events => e.Keeps tables p ∧ ∀ q, step tables p e = some q → KeepsAll tables q events

def Pool.ids (p : Pool) : List String := p.grpcClients.map Stub.instanceId

variable {tables : Characters} {p q : Pool} {ids : List String}

theorem findIdxFromInstanceId_eq (p : Pool) (id : String) :
    p.findIdxFromInstanceId tables id = p.ids.findIdx? (tables.equalsIgnoreCase id) := by
  simp [Pool.findIdxFromInstanceId, Pool.ids, findIdx?_map, Function.comp_def]

theorem ids_refresh {i : ℕ} {c existing : Stub} (h : p.grpcClients[i]? = some existing)
    (hid : existing.instanceId = c.instanceId) : (p.refresh i c).ids = p.ids := by
  obtain ⟨hi, rfl⟩ := List.getElem?_eq_some_iff.mp h
  rw [Pool.ids, Pool.refresh, map_set, ← hid, ← getElem_map Stub.instanceId (h := by simpa using hi)]
  exact set_getElem_self _

theorem step_keeps {e : Event} (h : e.Keeps tables p) : ∃ q, step tables p e = some q ∧ q.ids = p.ids := by
  cases e with
  | redirect hint ip connects =>
    have hhint : (p.leaderHint tables hint).ids = p.ids := rfl
    simp only [step, Pool.refreshIP]
    by_cases hblank : tables.isBlank ip = true
    · rw [if_pos hblank]
      exact ⟨_, rfl, hhint⟩
    · obtain ⟨i, c, hfound, hget, hid⟩ := h.resolve_left hblank
      have hget' : (p.leaderHint tables hint).grpcClients[i]? = some c := hget
      rw [if_neg hblank, hfound]
      simp only [bind_eq_bind, bind_some, hget']
      by_cases hsame : c.host = ip ∨ connects = false
      · rw [if_pos hsame]
        exact ⟨_, rfl, hhint⟩
      · rw [if_neg hsame]
        have hnumber : c.instanceId = toString (i + 1) := by tauto
        exact ⟨_, rfl, ids_refresh hget' hnumber⟩
  | unavailable index resolved connects =>
    refine ⟨_, rfl, ?_⟩
    change (p.tryRefreshClient tables index resolved connects).ids = p.ids
    unfold Pool.tryRefreshClient
    split
    · rename_i c existing hresolved hget
      split_ifs with hsame
      · rfl
      · have hconnects : connects ≠ false := fun hfails => hsame (.inr hfails)
        have hid := h.resolve_left hconnects c existing hresolved hget
        exact ids_refresh hget (hid.resolve_right fun hequal => hsame (.inl hequal))
    · rfl

theorem exec_keeps {events : List Event} (h : KeepsAll tables p events) :
    ∃ q, exec (step tables) p events = some q ∧ q.ids = p.ids := by
  induction events generalizing p with
  | nil => exact ⟨p, rfl, rfl⟩
  | cons e events ih =>
    obtain ⟨q, hstep, hq⟩ := step_keeps h.1
    obtain ⟨r, hrun, hr⟩ := ih (h.2 q hstep)
    exact ⟨r, by simpa [exec, hstep] using hrun, hr.trans hq⟩

theorem findIdx_of_distinct {i : ℕ} {id : String}
    (h : ids.Pairwise fun a b => tables.equalsIgnoreCase b a = false) (hid : ids[i]? = some id) :
    ids.findIdx? (tables.equalsIgnoreCase id) = some i := by
  obtain ⟨hi, rfl⟩ := List.getElem?_eq_some_iff.mp hid
  refine findIdx?_eq_some_iff_getElem.mpr ⟨hi, by simp [Characters.equalsIgnoreCase], fun j hj => ?_⟩
  rw [pairwise_iff_getElem.mp h j i (by omega) hi hj]
  exact Bool.false_ne_true

theorem leaderIndex_redirect {hint ip : String} {connects : Bool} {i : ℕ}
    (h : step tables p (.redirect hint ip connects) = some q)
    (hfound : p.findIdxFromInstanceId tables hint = some i) : q.leaderIndex = i := by
  have hlt : i < p.grpcClients.length := (findIdx?_eq_some_iff_getElem.mp hfound).1
  have hhint : (p.leaderHint tables hint).leaderIndex = i := by
    simp [Pool.leaderHint, Pool.leaders, hfound, LeaderOnlyClientPool.leaderHint, LeaderOnlyClientPool.reportLeader,
      hlt]
  simp only [step, Pool.refreshIP] at h
  split_ifs at h
  · cases h
    exact hhint
  · obtain ⟨i, -, h⟩ := bind_eq_some_iff.mp h
    obtain ⟨c, -, h⟩ := bind_eq_some_iff.mp h
    split_ifs at h <;> cases h <;> exact hhint

/-- Whatever happens, as long as new leader ips come for members with the number of their position only: no index error,
every position has its configured id, and a hint that names a member selects its position. -/
theorem pool_positions_kept {clients : List Stub} {events : List Event}
    (hdistinct : (clients.map Stub.instanceId).Pairwise fun a b => tables.equalsIgnoreCase b a = false)
    (h : KeepsAll tables ⟨clients, 0⟩ events) :
    ∃ q, exec (step tables) ⟨clients, 0⟩ events = some q ∧ q.ids = clients.map Stub.instanceId ∧
      ∀ i c ip connects t, clients[i]? = some c → step tables q (.redirect c.instanceId ip connects) = some t →
        t.leaderIndex = i := by
  obtain ⟨q, hrun, hids⟩ := exec_keeps h
  refine ⟨q, hrun, hids, fun i c ip connects t hc ht => ?_⟩
  have hfound : q.findIdxFromInstanceId tables c.instanceId = some i := by
    rw [findIdxFromInstanceId_eq, hids]
    exact findIdx_of_distinct hdistinct (by simp [Pool.ids, hc])
  exact leaderIndex_redirect ht hfound

/-- The second of two members gets a new ip. -/
theorem pool_positions_of_numbered : ∃ q,
    exec (step .ascii) ⟨[⟨"1", "a", 1⟩, ⟨"2", "b", 1⟩], 0⟩ [.redirect "2" "c" true] = some q ∧ q.ids = ["1", "2"] := by
  have hdistinct : (List.map Stub.instanceId [⟨"1", "a", 1⟩, ⟨"2", "b", 1⟩]).Pairwise
      fun a b => Characters.ascii.equalsIgnoreCase b a = false := by decide
  have hkeeps : KeepsAll .ascii ⟨[⟨"1", "a", 1⟩, ⟨"2", "b", 1⟩], 0⟩ [.redirect "2" "c" true] :=
    ⟨.inr ⟨1, ⟨"2", "b", 1⟩, by decide, rfl, .inr (.inr (by decide))⟩, fun _ _ => trivial⟩
  obtain ⟨q, hrun, hids, -⟩ := pool_positions_kept hdistinct hkeeps
  exact ⟨q, hrun, hids⟩

/-- Members in another order: a new ip gives the position the id of the other one. An ip of a member that is not
configured is an index error. Of two ids that differ in their case only the first one is selected. -/
theorem pool_positions_lost :
    (exec (step .ascii) ⟨[⟨"2", "b", 1⟩, ⟨"1", "a", 1⟩], 0⟩ [.redirect "2" "c" true]).map Pool.ids = some ["1", "1"] ∧
      exec (step .ascii) ⟨[⟨"1", "a", 1⟩], 0⟩ [.redirect "9" "c" true] = none ∧
      (exec (step .ascii) ⟨[⟨"x", "a", 1⟩, ⟨"X", "b", 1⟩], 0⟩ [.redirect "X" "" false]).map Pool.leaderIndex =
        some 0 := by
  decide

end Goblin.Client.RaftClusterClient
