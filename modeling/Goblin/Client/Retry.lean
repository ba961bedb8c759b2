import Goblin.Client.Responses
import Goblin.Command.Locking
import Goblin.Execution.EntryLoop
import Goblin.Execution.Processor

/-! A conditional request of the Java client: `RaftClusterClient.execute` sends it again until it gets a
definite answer, and the cluster may have applied an attempt whose answer was lost. -/
namespace Goblin.Client.Retry

open Model Store Execution Lib Responses List Option

/-- `leaderHint` is the index of the instance that is hinted at, when the pool knows it. -/
structure Reply where
  code : Code
  response : Response
  leaderHint : Option ℕ := none

/-- A request on its way to an instance of a cluster. `served` says that the cluster is done with it, and `applied`
under which version the log holds it. -/
structure Attempt where
  cluster : ℕ
  target : ℕ
  served : Bool := false
  applied : Option ℕ := none
  reply : Option Reply := none

inductive Phase
  | ready
  | waiting (attempt : ℕ)
  | ended (ending : Ending Response)

/-- `timed` says that the time of the first call is noted. -/
structure Caller where
  phase : Phase := .ready
  cluster : ℕ := 0
  retryTimes : ℕ := 0
  timed : Bool := false

/-- The version under which the outcome goes to the log. -/
def loggedVersion : Outcome → Option ℕ
  | .persistAsync version _ _ => some version
  | _ => none

/-- The versions that a response gives to what it has written. -/
def writtenVersions (response : Response) : List ℕ :=
  response.results.filterMap fun
    | .write _ version => if version = kInvalidVersion then none else some version
    | _ => none

/-- How a command is processed by the instance that takes it. -/
def process (p : Processor) (c : Command) (preExecute : Status) : Option (Outcome × Processor) :=
  if c.isFollowerReadCmd then doFollowerReadExecute p c else doExecute p c preExecute

/-- `proc` stands for the state that the instances agree on, whichever of them is the leader. The pool of the clients
is shared by all threads. -/
structure Cluster where
  proc : Processor := {}
  pool : LeaderOnlyClientPool

structure State where
  clusters : ℕ → Cluster
  attempts : List Attempt := []
  caller : Caller := {}

namespace State

def setCluster (s : State) (i : ℕ) (cluster : Cluster) : State :=
  { s with clusters := Function.update s.clusters i cluster }

def setPool (s : State) (i : ℕ) (pool : LeaderOnlyClientPool) : State :=
  s.setCluster i { s.clusters i with pool := pool }

/-- What the thread does after an attempt that has come to its end. -/
def goOn (s : State) (i : ℕ) : Next LeaderOnlyClientPool Response → State
  | .again retryTimes pool => { s.setPool i pool with
      caller := { s.caller with phase := .ready, retryTimes := retryTimes } }
  | .exit ending retryTimes pool => { s.setPool i pool with
      caller := { s.caller with phase := .ended ending, retryTimes := retryTimes } }

end State

def poolActions (index : ℕ) (leaderHint : Option ℕ) : PoolActions LeaderOnlyClientPool where
  reportLeader p := p.reportLeader index
  leaderHint p := p.leaderHint leaderHint
  markDown p := p.markDown index

inductive Act
  | send (target : ℕ)
  | expire
  | receive (redirect : Redirect)
  | lose (resourceExhausted : Bool)
  | raise
  | reroute (found : Option ℕ)
  | serve (attempt : ℕ) (preExecute : Status)
  | refuse (attempt : ℕ) (code : ResponseCode) (leaderHint : Option ℕ)
  | obscure (attempt : ℕ) (code : ResponseCode) (leaderHint : Option ℕ)
  | other (cluster : ℕ) (command : Command) (preExecute : Status)
  | moveLeader (cluster leaderIndex : ℕ)
  | tick (cluster now : ℕ)

def errorReply (code : ResponseCode) (leaderHint : Option ℕ) : Reply where
  code := .of code
  response := { code := code, latestVersion := kInvalidVersion }
  leaderHint := leaderHint

/-- The instance that takes an attempt may refuse it without executing it, because it is not the
leader, say; and when the leader changes, an attempt that was executed may be answered with an error.
An attempt may be served long after the caller has given up on it. Another call of the pool may move its leader. -/
def step (req : TransRequest) (s : State) : Act → Option State
  | .send target =>
    match s.caller.phase with
    | .ready =>
      if target = (s.clusters s.caller.cluster).pool.leaderIndex ∨ req.allowStale then some { s with
        attempts := s.attempts ++ [{ cluster := s.caller.cluster, target := target }]
        caller := { s.caller with phase := .waiting s.attempts.length, timed := true } }
      else none
    | _ => none
  | .expire =>
    match s.caller.phase with
    | .ready =>
      if s.caller.timed then some { s with caller := { s.caller with phase := .ended .failed } } else none
    | _ => none
  | .receive redirect =>
    match s.caller.phase with
    | .waiting i => do
      let a ← s.attempts[i]?
      let reply ← a.reply
      let pool := (s.clusters a.cluster).pool
      return s.goOn a.cluster (Responses.receive (poolActions a.target reply.leaderHint) pool.size req.allowStale false
        reply.code reply.response redirect s.caller.retryTimes pool)
    | _ => none
  | .lose resourceExhausted =>
    match s.caller.phase with
    | .waiting i => do
      let a ← s.attempts[i]?
      let pool := (s.clusters a.cluster).pool
      return s.goOn a.cluster
        (accessException (poolActions a.target none) pool.size resourceExhausted s.caller.retryTimes pool)
    | _ => none
  | .raise =>
    match s.caller.phase with
    | .waiting _ => some { s with caller := { s.caller with phase := .ended .failed } }
    | _ => none
  | .reroute found =>
    match s.caller.phase with
    | .ended .rerouting => some { s with
        caller := { s.caller with
          phase := if found.isSome then .ready else .ended .failed
          cluster := found.getD s.caller.cluster
          timed := false } }
    | _ => none
  | .serve i preExecute => do
    let a ← s.attempts[i]?
    if a.served then none
    else
      let (out, proc) ← process (s.clusters a.cluster).proc (KVTransCommand req) preExecute
      return { s.setCluster a.cluster { s.clusters a.cluster with proc := proc } with
        attempts := s.attempts.set i { a with
          served := true
          applied := loggedVersion out
          reply := some { code := .of out.response.code, response := out.response } } }
  | .refuse i code leaderHint => do
    let a ← s.attempts[i]?
    if a.served ∨ code = .OK then none
    else return { s with attempts := s.attempts.set i { a with
      served := true, reply := some (errorReply code leaderHint) } }
  | .obscure i code leaderHint => do
    let a ← s.attempts[i]?
    if a.served ∧ (code = .NOT_LEADER ∨ code = .GENERAL_ERROR) then
      return { s with attempts := s.attempts.set i { a with
        reply := some (errorReply code leaderHint) } }
    else none
  | .other i command preExecute => do
    let (_, proc) ← process (s.clusters i).proc command preExecute
    return s.setCluster i { s.clusters i with proc := proc }
  | .moveLeader i leaderIndex => some (s.setPool i { (s.clusters i).pool with leaderIndex := leaderIndex })
  | .tick i now =>
    let proc := (s.clusters i).proc
    if proc.stores.now ≤ now then
      some (s.setCluster i { s.clusters i with proc := { proc with stores := { proc.stores with now := now } } })
    else none

section Process

open KVTransCommand

variable {req : TransRequest} {p p' : Processor} {out : Outcome}

variable {events : List Event} {response : Response} {r : ExecResult} {v : VersionStore}

theorem ne_of_mem_writtenVersions {v : ℕ} (h : v ∈ writtenVersions response) : v ≠ kInvalidVersion := by
  obtain ⟨result, -, hsome⟩ := mem_filterMap.mp h
  cases result with
  | write code version =>
    dsimp only at hsome
    split_ifs at hsome with hv
    cases hsome
    exact hv
  | _ => cases hsome

theorem initSuccessResponse_fields {curMaxVersion : ℕ} {ignoredPutKeys : List KeyType}
    (h : initSuccessResponse req curMaxVersion ignoredPutKeys events = some response) : response.code = .OK ∧
      ∀ v ∈ writtenVersions response, ∃ w, .write w ∈ events ∧ w.mVersion = v := by
  unfold initSuccessResponse at h
  by_cases hnil : events = []
  · simp only [hnil, if_true, bind_eq_bind, bind_some] at h
    cases h
    exact ⟨rfl, by simp [writtenVersions]⟩
  · simp only [hnil, if_false, bind_eq_bind] at h
    obtain ⟨r, hr, hresponse⟩ := bind_eq_some_iff.mp h
    cases hresponse
    refine ⟨rfl, fun v hv => ?_⟩
    obtain ⟨result, hresult, hsome⟩ := mem_filterMap.mp hv
    cases result with
    | write code version =>
      dsimp only at hsome
      split_ifs at hsome
      cases hsome
      obtain ⟨more, hmore, -, hwrites⟩ := addResults_results hr
      rw [hmore] at hresult
      exact hwrites code v hresult
    | _ => cases hsome

theorem pending_of_executes {cond : CondState} {curTime : ℕ} {st st' : LoopState} {entry : Entry}
    {cs : List Execution.Call}
    (h : Executes req cond curTime st entry st' cs) (hst : ∀ e ∈ st.events, Pending e) :
    ∀ e ∈ st'.events, Pending e := by
  have hpush {v : Event} (hv : Pending v) : ∀ e ∈ st.events ++ [v], Pending e :=
    forall_mem_append.mpr ⟨hst, forall_mem_singleton.mpr hv⟩
  cases h with
  | ignored | put | missing | absent => exact hpush ⟨rfl, nofun⟩
  | found hread hs hmeta => cases hmeta <;> exact hpush ⟨rfl, nofun⟩
  | removed hread hs =>
    refine hpush ?_
    unfold removeEvent
    split_ifs <;> exact ⟨rfl, nofun⟩
  | _ => exact hst

theorem pending_of_run_execute {s t : Stores} (h : (KVTransCommand req).execute.run Stores.answer s = some (r, t)) :
    ∀ e ∈ r.events, Pending e := by
  obtain ⟨status, cond, -, -, rfl⟩ | ⟨status, cond, s₁, st, -, -, hrun, rfl⟩ := run_execute h
  · exact nofun
  have hloop {curTime : ℕ} {entries : List Entry} {st st' : LoopState} {s s' : Stores}
      (hrun : (execEntries req cond curTime entries st).run Stores.answer s = some (st', s'))
      (hst : ∀ e ∈ st.events, Pending e) : ∀ e ∈ st'.events, Pending e := by
    induction entries generalizing st s with
    | nil =>
      cases hrun
      exact hst
    | cons entry entries ih =>
      obtain ⟨st₁, s₁, -, hexecutes, ⟨-, rfl, -⟩ | ⟨-, hrest⟩⟩ := run_execEntries_cons hrun
      · exact pending_of_executes hexecutes hst
      · exact ih hrest (pending_of_executes hexecutes hst)
  exact hloop hrun nofun

/-- A version that the response gives to a write is the one under which the transaction is logged, and
a transaction that is logged is answered with success. -/
structure Faithful (out : Outcome) : Prop where
  versions : ∀ v ∈ writtenVersions out.response, loggedVersion out = some v
  success : (loggedVersion out).isSome → out.response.code = .OK

theorem faithful_errorReply (h : Execution.errorReply (KVTransCommand req) v r = some response) :
    Faithful (.reply response) := by
  cases h
  refine ⟨fun x hx => ?_, fun hsome => by cases hsome⟩
  simp [writtenVersions, Outcome.response, Response.fillResponse] at hx

theorem mVersion_of_assignVersion {events' : List Event} {version : ℕ}
    (h : events.mapM (Event.assignVersion version) = some events') {w : WriteEvent} (hw : .write w ∈ events') :
      w.mVersion = version := by
  obtain ⟨e, -, he⟩ := exists_mem_of_mapM_right h hw
  cases e with
  | write w' =>
    simp only [Event.assignVersion] at he
    split_ifs at he
    cases he
    rfl
  | read r => cases he
  | _ =>
    simp only [Event.assignVersion] at he
    split_ifs at he
    cases he

/-- A reply that waits for what was read shows no version of a write. -/
theorem faithful_reply {version : ℕ} {response : Response}
    (hpending : ∀ e ∈ r.events, Pending e)
    (hresponse : (KVTransCommand req).initSuccessResponse v.getCurMaxVersion r.ignoredPutKeys r.events =
      some response) :
    Faithful (.replyAsync version response) := by
  refine ⟨fun x hx => ?_, fun hsome => by cases hsome⟩
  obtain ⟨w, hw, rfl⟩ := (initSuccessResponse_fields hresponse).2 x hx
  exact absurd (hpending _ hw).1 (ne_of_mem_writtenVersions hx)

theorem faithful_dispatch {d : Dispatched} (hpending : ∀ e ∈ r.events, Pending e)
    (h : dispatch (KVTransCommand req) v r = some d) (hout : d.outcome = some out) : Faithful out := by
  unfold dispatch at h
  by_cases hfail : hasFailed r
  · rw [if_pos hfail] at h
    cases h
    cases hout
  rw [if_neg hfail] at h
  obtain ⟨expected, -, h⟩ := bind_eq_some_iff.mp h
  split_ifs at h with hany
  · obtain ⟨events, hevents, h⟩ := bind_eq_some_iff.mp h
    obtain ⟨response, hresponse, h⟩ := bind_eq_some_iff.mp h
    cases h
    cases hout
    obtain ⟨hcode, hwrites⟩ := initSuccessResponse_fields hresponse
    refine ⟨fun x hx => ?_, fun _ => hcode⟩
    obtain ⟨w, hw, rfl⟩ := hwrites x hx
    rw [mVersion_of_assignVersion hevents hw]
    rfl
  · obtain ⟨response, hresponse, h⟩ := bind_eq_some_iff.mp h
    cases h
    cases hout
    exact faithful_reply hpending hresponse

theorem faithful_dispatchFollowerRead {d : Dispatched}
    (hpending : ∀ e ∈ r.events, Pending e)
    (h : dispatchFollowerRead (KVTransCommand req) v r = some d) (hout : d.outcome = some out) : Faithful out := by
  unfold dispatchFollowerRead at h
  by_cases hfail : hasFailed r
  · rw [if_pos hfail] at h
    cases h
    cases hout
  rw [if_neg hfail] at h
  obtain ⟨version, -, h⟩ := bind_eq_some_iff.mp h
  obtain ⟨response, hresponse, h⟩ := bind_eq_some_iff.mp h
  cases h
  cases hout
  exact faithful_reply hpending hresponse

/-- How both ways of executing end: in the outcome of the dispatch, or in an error reply. -/
def concluded (outcome : Option Outcome) (response : Option Response) (q : Processor) : Option (Outcome × Processor) :=
  match outcome with
  | some outcome => some (outcome, q)
  | none => response.bind fun response => some (.reply response, q)

theorem faithful_process {preExecute : Status}
    (h : process p (KVTransCommand req) preExecute = some (out, p')) : Faithful out := by
  have hend {v : VersionStore} {r : ExecResult} {d : Dispatched} {q : Processor}
      (hdispatch : ∀ out, d.outcome = some out → Faithful out)
      (hout : concluded d.outcome (Execution.errorReply (KVTransCommand req) v r) q = some (out, p')) :
        Faithful out := by
    unfold concluded at hout
    cases hd : d.outcome with
    | some outcome =>
      rw [hd] at hout
      cases hout
      exact hdispatch out hd
    | none =>
      rw [hd] at hout
      obtain ⟨response, hresponse, hout⟩ := bind_eq_some_iff.mp hout
      cases hout
      exact faithful_errorReply hresponse
  unfold process at h
  split_ifs at h
  · obtain ⟨keys, -, h⟩ := bind_eq_some_iff.mp h
    obtain ⟨⟨r, stores⟩, hrun, h⟩ := bind_eq_some_iff.mp h
    obtain ⟨d, hd, h⟩ := bind_eq_some_iff.mp h
    exact hend (fun out => faithful_dispatchFollowerRead (pending_of_run_execute hrun) hd) h
  · unfold doExecute at h
    obtain ⟨keys, -, h⟩ := bind_eq_some_iff.mp h
    cases hpre : preExecute.isOK with
    | true =>
      simp only [hpre, if_true] at h
      obtain ⟨⟨r, stores⟩, hrun, h⟩ := bind_eq_some_iff.mp h
      obtain ⟨d, hd, h⟩ := bind_eq_some_iff.mp h
      exact hend (fun out => faithful_dispatch (pending_of_run_execute hrun) hd) h
    | false =>
      simp only [hpre, Bool.false_eq_true, if_false, bind_eq_bind, bind_some] at h
      obtain ⟨d, hd, h⟩ := bind_eq_some_iff.mp h
      exact hend (fun out => faithful_dispatch (fun e he => by cases he) hd) h

end Process

/-- What an action has to meet: the caller gives up on an attempt, or gets an error for it, only if the
cluster has not applied it, and the cluster does not take up an attempt that the caller has given up. -/
def Definite (s : State) : Act → Prop
  | .lose _ => ∀ i, s.caller.phase = .waiting i → ∀ a, s.attempts[i]? = some a → a.applied = none
  | .serve i _ => s.caller.phase = .waiting i
  | .obscure i _ _ => ∀ a, s.attempts[i]? = some a → a.applied = none
  | _ => True

/-- The reply of an attempt tells whether it was applied. -/
structure Attempt.Sane (a : Attempt) : Prop where
  unserved : a.served = false → a.applied = none
  success : ∀ v, a.applied = some v → ∃ r, a.reply = some r ∧ actionTable r.code = .SUCCESS
  versions : ∀ r, a.reply = some r → ∀ v ∈ writtenVersions r.response, a.applied = some v

/-- What the caller may conclude about the attempts, from which only `applied` counts. -/
def Phase.Holds (applied : List (Option ℕ)) : Phase → Prop
  | .waiting i => ∃ before x, applied = before ++ [x] ∧ i = before.length ∧ ∀ y ∈ before, y = none
  | .ended (.returned response) => ∀ v ∈ writtenVersions response, applied.filterMap id = [v]
  | .ended .failed => True
  | _ => ∀ x ∈ applied, x = none

structure Inv (s : State) : Prop where
  sane : ∀ a ∈ s.attempts, a.Sane
  holds : s.caller.phase.Holds (s.attempts.map Attempt.applied)

/-- The call goes on or has ended without a response. -/
def Fruitless {P : Type} : Next P Response → Prop
  | .exit (.returned _) _ _ => False
  | _ => True

section Steps

variable {req : TransRequest} {s t : State} {i : ℕ} {a a' : Attempt}

section Responses

variable {P : Type} {actions : PoolActions P} {size : ℕ}

theorem fruitless_increase {next : ℕ → P → Next P Response} (hnext : ∀ n p, Fruitless (next n p)) (n : ℕ) (p : P) :
    Fruitless (increaseRetryTimeAndCheck size next n p) := by
  unfold increaseRetryTimeAndCheck
  split_ifs
  · trivial
  · exact hnext _ _

theorem fruitless_accessException (resourceExhausted : Bool) (n : ℕ) (p : P) :
    Fruitless (accessException actions size resourceExhausted n p) := by
  unfold accessException
  split_ifs
  · trivial
  · exact @fruitless_increase P size (serviceUnavailable actions) (fun _ _ => trivial) n p

/-- The call returns the response of a success, or the attempt was no success. -/
theorem receive_cases (stale : Bool) (code : Code) (response : Response) (redirect : Redirect) (n : ℕ) (p : P) :
    (∃ n' p', receive actions size stale false code response redirect n p = .exit (.returned response) n' p') ∨
      actionTable code ≠ .SUCCESS ∧ Fruitless (receive actions size stale false code response redirect n p) := by
  unfold receive
  by_cases hsuccess : actionTable code = .SUCCESS
  · simp [needRetry, hsuccess, doAction]
  by_cases hkey : actionTable code = .KEY_NOT_EXIST
  · simp [needRetry, hkey, doAction]
  have haction (n : ℕ) (p : P) : Fruitless (doAction actions size stale false code response redirect n p) := by
    unfold doAction
    cases ha : actionTable code with
    | SUCCESS => exact absurd ha hsuccess
    | KEY_NOT_EXIST => exact absurd ha hkey
    | REDIRECT =>
      cases redirect with
      | connectFails => exact fruitless_accessException ..
      | _ => trivial
    | _ => trivial
  refine .inr ⟨hsuccess, ?_⟩
  split_ifs
  · exact fruitless_increase haction n p
  · exact haction n p

end Responses

theorem holds_goOn {j : ℕ} {next : Next LeaderOnlyClientPool Response} (h : Fruitless next)
    {applied : List (Option ℕ)} (hnone : ∀ x ∈ applied, x = none) : (s.goOn j next).caller.phase.Holds applied := by
  cases next with
  | again => exact hnone
  | exit ending n pool =>
    cases ending with
    | returned => exact h.elim
    | failed => trivial
    | _ => exact hnone

theorem attempts_goOn (j : ℕ) (next : Next LeaderOnlyClientPool Response) :
    (s.goOn j next).attempts = s.attempts := by
  cases next <;> rfl

theorem Inv.waiting (h : Inv s) (hi : s.caller.phase = .waiting i) (ha : s.attempts[i]? = some a) :
    ∃ before, s.attempts = before ++ [a] ∧ i = before.length ∧ ∀ b ∈ before, b.applied = none := by
  have hholds := h.holds
  rw [hi] at hholds
  obtain ⟨before, x, happlied, hlen, hnone⟩ := hholds
  obtain ⟨front, last, hattempts, hfront, hlast⟩ := map_eq_append_iff.mp happlied
  obtain ⟨b, rfl, hb⟩ := map_eq_singleton_iff.mp hlast
  have hi' : i = front.length := by simp [hlen, ← hfront]
  have hba : b = a := by
    rw [hattempts, hi'] at ha
    simpa using ha
  refine ⟨front, hba ▸ hattempts, hi', fun c hc => hnone _ ?_⟩
  rw [← hfront]
  exact mem_map_of_mem hc

theorem sane_set {attempts : List Attempt} (h : ∀ a ∈ attempts, a.Sane) (ha' : a'.Sane) :
      ∀ a ∈ attempts.set i a', a.Sane := by
  intro a ha
  rcases mem_or_eq_of_mem_set ha with ha | rfl
  · exact h a ha
  · exact ha'

/-- No attempt is applied if the one that the caller waits for is not. -/
theorem Inv.none_applied (h : Inv s) (hi : s.caller.phase = .waiting i) (ha : s.attempts[i]? = some a)
    (happlied : a.applied = none) : ∀ x ∈ s.attempts.map Attempt.applied, x = none := by
  obtain ⟨before, hattempts, -, hnone⟩ := h.waiting hi ha
  rw [hattempts, map_append, forall_mem_append]
  exact ⟨forall_mem_map.mpr hnone, forall_mem_singleton.mpr happlied⟩

theorem Inv.receive (h : Inv s) (hi : s.caller.phase = .waiting i) (ha : s.attempts[i]? = some a) {reply : Reply}
    (hreply : a.reply = some reply) {actions : PoolActions LeaderOnlyClientPool} {size n : ℕ} (stale : Bool)
    (redirect : Redirect) (pool : LeaderOnlyClientPool) :
    Inv (s.goOn a.cluster (receive actions size stale false reply.code reply.response redirect n pool)) := by
  obtain ⟨before, hattempts, -, hnone⟩ := h.waiting hi ha
  have hsane := h.sane a (mem_of_getElem? ha)
  have hbefore : before.filterMap Attempt.applied = [] := filterMap_eq_nil_iff.mpr hnone
  refine ⟨by rw [attempts_goOn]; exact h.sane, ?_⟩
  rw [attempts_goOn]
  obtain ⟨n', pool', hreturned⟩ | ⟨hcode, hfruitless⟩ := receive_cases stale reply.code reply.response redirect n pool
  · rw [hreturned]
    intro v hv
    have hv' := hsane.versions reply hreply v hv
    simp [hattempts, filterMap_map, hbefore, hv']
  · refine holds_goOn hfruitless (h.none_applied hi ha ?_)
    cases happ : a.applied with
    | none => rfl
    | some v =>
      obtain ⟨r, hr, hsuccess⟩ := hsane.success v happ
      cases hreply.symm.trans hr
      exact absurd hsuccess hcode

theorem Inv.lose (h : Inv s) (hi : s.caller.phase = .waiting i) (ha : s.attempts[i]? = some a)
    (happlied : a.applied = none) {actions : PoolActions LeaderOnlyClientPool} {size n : ℕ} (resourceExhausted : Bool)
    (pool : LeaderOnlyClientPool) :
    Inv (s.goOn a.cluster (accessException actions size resourceExhausted n pool)) := by
  refine ⟨by rw [attempts_goOn]; exact h.sane, ?_⟩
  rw [attempts_goOn]
  exact holds_goOn (fruitless_accessException ..) (h.none_applied hi ha happlied)

theorem Inv.serve (h : Inv s) (hi : s.caller.phase = .waiting i) (ha : s.attempts[i]? = some a) (ha' : a'.Sane)
    (cluster : Cluster) : Inv { s.setCluster a.cluster cluster with attempts := s.attempts.set i a' } := by
  obtain ⟨before, hattempts, hlen, hnone⟩ := h.waiting hi ha
  refine ⟨sane_set h.sane ha', ?_⟩
  change s.caller.phase.Holds _
  rw [hi]
  refine ⟨before.map Attempt.applied, a'.applied, ?_, by simp [hlen], fun y hy => ?_⟩
  · rw [hattempts, hlen, set_append_right _ _ (Nat.le_refl _)]
    simp
  · obtain ⟨b, hb, rfl⟩ := mem_map.mp hy
    exact hnone b hb

theorem Inv.answerError (h : Inv s) (ha : s.attempts[i]? = some a) (he : a'.applied = a.applied)
    (hnone : a.applied = none) {code : ResponseCode} {leaderHint : Option ℕ}
    (hreply : a'.reply = some (errorReply code leaderHint)) : Inv { s with attempts := s.attempts.set i a' } := by
  have hnone' := he.trans hnone
  have hsane : a'.Sane := by
    refine ⟨fun _ => hnone', fun v hv => ?_, fun r hr v hv => ?_⟩
    · cases hnone'.symm.trans hv
    · cases hreply.symm.trans hr
      cases hv
  refine ⟨sane_set h.sane hsane, ?_⟩
  dsimp only
  rw [map_set, set_self (by simp [ha, he])]
  exact h.holds

theorem sane_served {preExecute : Status} {out : Outcome} {p p' : Processor} (cluster target : ℕ)
    (h : process p (KVTransCommand req) preExecute = some (out, p')) :
    Attempt.Sane { cluster := cluster, target := target, served := true, applied := loggedVersion out,
                   reply := some { code := .of out.response.code, response := out.response } } := by
  have hfaithful := faithful_process h
  refine ⟨fun hserved => (Bool.noConfusion hserved), fun v hv => ⟨_, rfl, ?_⟩, fun r hr v hv => ?_⟩
  · have hlogged : loggedVersion out = some v := hv
    have hcode : out.response.code = .OK := hfaithful.success (by simp [hlogged])
    simp [hcode, actionTable]
  · cases hr
    exact hfaithful.versions v hv

theorem Inv.send (h : Inv s) (hp : s.caller.phase = .ready) (target : ℕ) :
    Inv { s with
      attempts := s.attempts ++ [{ cluster := s.caller.cluster, target := target }]
      caller := { s.caller with phase := .waiting s.attempts.length, timed := true } } := by
  refine ⟨forall_mem_append.mpr ⟨h.sane, forall_mem_singleton.mpr ⟨fun _ => rfl, nofun, nofun⟩⟩, ?_⟩
  have hholds := h.holds
  rw [hp] at hholds
  exact ⟨s.attempts.map Attempt.applied, none, by simp, by simp, hholds⟩

theorem Inv.reroute (h : Inv s) (hp : s.caller.phase = .ended .rerouting) (found : Option ℕ) (cluster : ℕ) :
    Inv { s with caller := { s.caller with
      phase := if found.isSome then .ready else .ended .failed, cluster := cluster, timed := false } } := by
  have hholds := h.holds
  rw [hp] at hholds
  refine ⟨h.sane, ?_⟩
  cases found with
  | some => exact hholds
  | none => trivial

theorem Inv.step (h : Inv s) {a : Act} (hg : Definite s a) (hs : step req s a = some t) : Inv t := by
  cases a with
  | send target =>
    simp only [Retry.step] at hs
    split at hs
    next hp =>
      split_ifs at hs
      cases hs
      exact h.send hp target
    next => cases hs
  | expire =>
    simp only [Retry.step] at hs
    split at hs
    next =>
      split_ifs at hs
      cases hs
      exact ⟨h.sane, trivial⟩
    next => cases hs
  | receive redirect =>
    simp only [Retry.step] at hs
    split at hs
    next hp =>
      obtain ⟨a, ha, hs⟩ := bind_eq_some_iff.mp hs
      obtain ⟨reply, hreply, hs⟩ := bind_eq_some_iff.mp hs
      cases hs
      exact h.receive hp ha hreply _ _ _
    next => cases hs
  | lose resourceExhausted =>
    simp only [Retry.step] at hs
    split at hs
    next hp =>
      obtain ⟨a, ha, hs⟩ := bind_eq_some_iff.mp hs
      cases hs
      exact h.lose hp ha (hg _ hp a ha) _ _
    next => cases hs
  | raise =>
    simp only [Retry.step] at hs
    split at hs
    next =>
      cases hs
      exact ⟨h.sane, trivial⟩
    next => cases hs
  | reroute found =>
    simp only [Retry.step] at hs
    split at hs
    next hp =>
      cases hs
      exact h.reroute hp found _
    next => cases hs
  | serve i preExecute =>
    obtain ⟨a, ha, hs⟩ := bind_eq_some_iff.mp hs
    split_ifs at hs
    obtain ⟨⟨out, proc⟩, hprocess, hs⟩ := bind_eq_some_iff.mp hs
    cases hs
    exact h.serve hg ha (sane_served a.cluster a.target hprocess) _
  | refuse i code leaderHint =>
    obtain ⟨a, ha, hs⟩ := bind_eq_some_iff.mp hs
    split_ifs at hs with hrefused
    cases hs
    rw [not_or] at hrefused
    have hnone := (h.sane a (mem_of_getElem? ha)).unserved (by simpa using hrefused.1)
    exact h.answerError ha rfl hnone rfl
  | obscure i code leaderHint =>
    obtain ⟨a, ha, hs⟩ := bind_eq_some_iff.mp hs
    split_ifs at hs
    cases hs
    exact h.answerError ha rfl (hg a ha) rfl
  | other i command preExecute =>
    obtain ⟨⟨out, proc⟩, -, hs⟩ := bind_eq_some_iff.mp hs
    cases hs
    exact ⟨h.sane, h.holds⟩
  | moveLeader i leaderIndex =>
    cases hs
    exact ⟨h.sane, h.holds⟩
  | tick i now =>
    simp only [Retry.step] at hs
    split_ifs at hs
    cases hs
    exact ⟨h.sane, h.holds⟩

end Steps

theorem conditional_request_definite (req : TransRequest) {s₀ s : State} {acts : List Act}
    (hattempts : s₀.attempts = []) (hready : s₀.caller.phase = .ready)
    (hrun : exec (step req) s₀ acts = some s) (hdefinite : Meets (step req) Definite s₀ acts) :
    (s.caller.phase = .ended .conditionNotMet → ∀ a ∈ s.attempts, a.applied = none) ∧
      ∀ response, s.caller.phase = .ended (.returned response) → ∀ v ∈ writtenVersions response,
        s.attempts.filterMap Attempt.applied = [v] := by
  have hinit : Inv s₀ := ⟨by simp [hattempts], by rw [hready, hattempts]; exact nofun⟩
  have hinv : Inv s := exec_invariant (fun _ _ _ h hg hs => h.step hg hs) hinit hdefinite hrun
  have hholds := hinv.holds
  refine ⟨fun hp a ha => ?_, fun response hp v hv => ?_⟩
  · rw [hp] at hholds
    exact hholds a.applied (mem_map_of_mem ha)
  · rw [hp] at hholds
    simpa [filterMap_map] using hholds v hv

/-- The cluster holds `a` under version 1. -/
def holdsOne : State where
  clusters _ :=
    { pool := { size := 3 }
      proc :=
        { stores :=
            { db := { mRocksDB := fun key => if key = "a" then some { value := "v", version := 1 } else none } }
          versions := { mNextVersion := 2, mMaxVersion := 1 } } }

/-- `cas` against version 1. -/
def casOne : TransRequest where
  preconds := [.versionCond "a" 1 .EQUAL]
  entries := [.write { key := "a", value := "w" }]

/-- `put` on condition that the key exists. -/
def putExisting : TransRequest where
  preconds := [.existCond "a" true]
  entries := [.write { key := "a", value := "w" }]

/-- The first attempt does not reach the cluster, the second one is applied. -/
theorem casOne_definite : ∃ s response,
    exec (step casOne) holdsOne [.send 0, .lose false, .send 1, .serve 1 .ok, .receive .followed] = some s ∧
      s.caller.phase = .ended (.returned response) ∧ writtenVersions response = [2] ∧
      s.attempts.filterMap Attempt.applied = [2] := by
  have hdefinite : Meets (step casOne) Definite holdsOne
      [.send 0, .lose false, .send 1, .serve 1 .ok, .receive .followed] := by
    refine meets_cons rfl trivial (meets_cons rfl ?_ (meets_cons rfl trivial
      (meets_cons rfl rfl (meets_cons rfl trivial trivial))))
    intro i hi a ha
    cases hi
    cases ha
    rfl
  refine ⟨_, _, rfl, rfl, rfl, ?_⟩
  exact (conditional_request_definite casOne rfl rfl rfl hdefinite).2 _ rfl 2
    (mem_singleton_self 2)

/-- An attempt that was applied but whose answer was lost makes the next one fail on its own effect, or
is applied a second time. -/
theorem lost_reply_ambiguous :
    (∃ s, exec (step casOne) holdsOne
        [.send 0, .serve 0 .ok, .lose false, .send 1, .serve 1 .ok, .receive .followed] = some s ∧
      s.caller.phase = .ended .conditionNotMet ∧ s.attempts.filterMap Attempt.applied = [2]) ∧
    ∃ s response, exec (step putExisting) holdsOne
        [.send 0, .serve 0 .ok, .lose false, .send 1, .serve 1 .ok, .receive .followed] = some s ∧
      s.caller.phase = .ended (.returned response) ∧ writtenVersions response = [3] ∧
      s.attempts.filterMap Attempt.applied = [2, 3] :=
  ⟨⟨_, rfl, rfl, rfl⟩, ⟨_, _, rfl, rfl, rfl, rfl⟩⟩

end Goblin.Client.Retry
