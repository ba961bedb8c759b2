import Goblin.Command.Basic

/-! What `RaftClusterClient.execute` makes of one attempt: the actions for the codes of the protocol, the counter of
the thread, which all clients of the thread share, and the leader that the pool of the clients goes by. -/
namespace Goblin.Client

/-- The pool that the others build on: how many clients it has, and which of them is taken for the leader. -/
structure LeaderOnlyClientPool where
  size : ℕ
  leaderIndex : ℕ := 0
  deriving DecidableEq, Repr

namespace LeaderOnlyClientPool

def reportLeader (p : LeaderOnlyClientPool) (index : ℤ) : LeaderOnlyClientPool :=
  { p with leaderIndex := if 0 ≤ index ∧ index < p.size then index.toNat else p.leaderIndex }

/-- `found` is the index of the instance that is hinted at, when the pool knows it. -/
def leaderHint (p : LeaderOnlyClientPool) (found : Option ℕ) : LeaderOnlyClientPool :=
  found.elim p fun index => p.reportLeader index

def markDown (p : LeaderOnlyClientPool) (index : ℕ) : LeaderOnlyClientPool :=
  { p with leaderIndex := if p.leaderIndex = index then (index + 1) % p.size else p.leaderIndex }

end LeaderOnlyClientPool

namespace Responses

open Model

/-- The codes of the protocol; those that no server sends stand apart. -/
inductive Code
  | PROCESSING | CREATED | IGNORED_REQUEST
  | of (code : ResponseCode)
  deriving DecidableEq, Repr

inductive ResponseAction
  | SUCCESS | INPROGRESS | KEY_NOT_EXIST | REDIRECT | WRONG_ROUTE | MIGRATED_ROUTE
  | CLIENT_ROUTE_OUT_OF_DATE | SERVER_ROUTE_OUT_OF_DATE | CLIENT_ERROR | CONDITION_NOT_MET
  | SERVICE_UNAVAILABLE
  deriving DecidableEq, Repr

/-- The standard table with the entries of `StoreClusterClientImpl`. A code that is not in it counts as
`GENERAL_ERROR`. -/
def actionTable : Code → ResponseAction
  | .PROCESSING => .INPROGRESS
  | .CREATED => .SUCCESS
  | .IGNORED_REQUEST => .SERVICE_UNAVAILABLE
  | .of .OK => .SUCCESS
  | .of .KEY_NOT_EXIST => .KEY_NOT_EXIST
  | .of .NOT_LEADER => .REDIRECT
  | .of .BAD_REQUEST => .CLIENT_ERROR
  | .of .PRECOND_NOT_MATCHED => .CONDITION_NOT_MET
  | .of .WRONG_ROUTE => .WRONG_ROUTE
  | .of .MIGRATED_ROUTE => .MIGRATED_ROUTE
  | .of .CLIENT_ROUTE_OUT_OF_DATE => .CLIENT_ROUTE_OUT_OF_DATE
  | .of .SERVER_ROUTE_OUT_OF_DATE => .SERVER_ROUTE_OUT_OF_DATE
  | .of .GENERAL_ERROR => .SERVICE_UNAVAILABLE
  | .of .UNKNOWN => .SERVICE_UNAVAILABLE

def needRetry (code : Code) : Bool :=
  actionTable code ∈ [.INPROGRESS, .REDIRECT, .SERVICE_UNAVAILABLE]

def MAX_RETRY_CYCLE : ℕ := 3

/-- What happens to a redirect: `indexError` is a leader ip for an instance that is not configured. -/
inductive Redirect
  | noLeaderHint
  | followed
  | connectFails (resourceExhausted : Bool)
  | indexError
  deriving DecidableEq, Repr

/-- How a call ends. It is `rerouting` while `ShardingClientImpl` looks for another cluster, and `failed` once it has
thrown anything but a condition that is not met. -/
inductive Ending (R : Type)
  | returned (response : R)
  | conditionNotMet
  | rerouting
  | failed
  deriving DecidableEq, Repr

/-- The call goes on or ends, with this value of `retryTimes` and this pool. -/
inductive Next (P R : Type)
  | again (retryTimes : ℕ) (pool : P)
  | exit (ending : Ending R) (retryTimes : ℕ) (pool : P)
  deriving DecidableEq, Repr

/-- What an attempt may do to the pool. -/
structure PoolActions (P : Type) where
  reportLeader : P → P
  leaderHint : P → P
  markDown : P → P

section Actions

variable {P R : Type} (actions : PoolActions P) (clusterSize : ℕ)

/-- What follows runs only if an instance is left to try. -/
def increaseRetryTimeAndCheck (next : ℕ → P → Next P R) (retryTimes : ℕ) (pool : P) : Next P R :=
  if retryTimes ≥ clusterSize * MAX_RETRY_CYCLE then .exit .failed 0 pool else next (retryTimes + 1) pool

def serviceUnavailable (retryTimes : ℕ) (pool : P) : Next P R := .again retryTimes (actions.markDown pool)

/-- The handler of access exceptions: the request or its answer is lost, or the deadline of the stub has passed. -/
def accessException (resourceExhausted : Bool) (retryTimes : ℕ) (pool : P) : Next P R :=
  if resourceExhausted then .exit .failed retryTimes pool
  else increaseRetryTimeAndCheck clusterSize (serviceUnavailable actions) retryTimes pool

/-- A delete whose key does not exist throws without touching the counter. -/
def doAction (stale isDelete : Bool) (code : Code) (response : R) (redirect : Redirect) (retryTimes : ℕ) (pool : P) :
    Next P R :=
  let success := .exit (.returned response) 0 (if stale then pool else actions.reportLeader pool)
  match actionTable code with
  | .SUCCESS => success
  | .INPROGRESS => .again retryTimes pool
  | .KEY_NOT_EXIST => if isDelete then .exit .failed retryTimes pool else success
  | .REDIRECT =>
    match redirect with
    | .noLeaderHint => .exit .failed retryTimes pool
    | .followed => .again retryTimes (actions.leaderHint pool)
    | .connectFails resourceExhausted =>
      accessException actions clusterSize resourceExhausted retryTimes (actions.leaderHint pool)
    | .indexError => .exit .failed retryTimes (actions.leaderHint pool)
  | .SERVER_ROUTE_OUT_OF_DATE => .again retryTimes pool
  | .SERVICE_UNAVAILABLE => serviceUnavailable actions retryTimes pool
  | .MIGRATED_ROUTE | .CLIENT_ROUTE_OUT_OF_DATE => .exit .rerouting 0 pool
  | .CONDITION_NOT_MET => .exit .conditionNotMet 0 pool
  | .WRONG_ROUTE | .CLIENT_ERROR => .exit .failed 0 pool

/-- The rest of `execute` once the stub has answered. -/
def receive (stale isDelete : Bool) (code : Code) (response : R) (redirect : Redirect) (retryTimes : ℕ) (pool : P) :
    Next P R :=
  if needRetry code then
    increaseRetryTimeAndCheck clusterSize (doAction actions clusterSize stale isDelete code response redirect)
      retryTimes pool
  else doAction actions clusterSize stale isDelete code response redirect retryTimes pool

end Actions

end Responses

end Goblin.Client
