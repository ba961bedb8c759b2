import Goblin.Lib.Lease
import Goblin.Lib.Lookup
import Goblin.Lib.Run
import Goblin.Model.Types

/-! The lock service of the Java client: the calls of `lock` and `unlock` of any number of clients, the
tasks that extend the locks in the background, and a server that runs every request atomically. A
request that is under way may be run late, more than once or never, as the cluster client sends it again
after a time-out or a redirect. -/
namespace Goblin.Client

open Lib Lib.Lease Model

namespace LockServiceImpl

def DEFAULT_LOCK_TTL_IN_SEC : ℕ := 20
def EXTEND_TIME_IN_SEC : ℕ := 20
def RETRY_TIMES : ℕ := 3

inductive TaskStatus
  | suspending | running | failed | canceling
  deriving DecidableEq, Repr

/-- Where a call of `lock` stands. -/
inductive LockPc
  /-- after `putIfAbsent` -/
  | registered
  /-- the previous task has failed, before `lockTaskMap.put` -/
  | replacing
  | sending
  | waiting
  /-- in the handler of `GoblinConditionNotMetException` -/
  | refused
  /-- in the handler of `GoblinException` -/
  | thrown
  /-- before `setVersion` -/
  | answered (version : ℕ)
  | locked
  /-- before `return true` -/
  | leaving
  | returned (result : Bool)
  | failed
  deriving DecidableEq, Repr

/-- Where the background task stands; the number is that of the retries left. -/
inductive RunPc
  | idle
  | loop
  | sleeping
  | extending (retryTimes : ℕ)
  /-- the status is set, before `!isCanceled` is read -/
  | checking (retryTimes : ℕ)
  | sending (retryTimes : ℕ)
  | waiting (retryTimes : ℕ)
  | answered (retryTimes version : ℕ)
  /-- in the handler of `GoblinException` -/
  | retrying (retryTimes : ℕ)
  /-- in the `finally` block, after a reply or after a refusal -/
  | settling (retryTimes : ℕ) (extended : Bool)
  /-- before `isCanceled` is read again -/
  | rechecking (retryTimes : ℕ)
  | dropping (retryTimes : ℕ)
  | deleting (retryTimes : ℕ)
  /-- returning through the `finally` blocks of the outer calls of `extendLock` -/
  | unwinding (depth : ℕ) (result : Bool)
  | failing
  | finished
  deriving DecidableEq, Repr

/-- A call of `lock` with the `LockTask` it has made and the run of that task. -/
structure LockTask (C K V : Type) where
  client : C
  key : K
  value : V
  version : ℕ := 0
  status : TaskStatus := .suspending
  isCanceled : Bool := false
  timeout : Option ℕ
  preTask : Option ℕ
  pc : LockPc := .registered
  run : RunPc := .idle
  /-- numbers the requests of the run -/
  attempt : ℕ := 0
  deriving Repr

/-- Where a call of `unlock` stands. A result `none` is an exception. -/
inductive UnlockPc
  /-- in `cancelTask`, before `isCanceled` is set -/
  | found
  | canceled
  | sending
  | waiting
  /-- in the `finally` block of `cancelTask` -/
  | restoring (result : Option Bool)
  /-- in the `finally` block of `unlock` -/
  | removing (result : Option Bool)
  | returned (result : Option Bool)
  deriving DecidableEq, Repr

structure UnlockCall (C K : Type) where
  client : C
  key : K
  task : ℕ
  pc : UnlockPc
  deriving Repr

/-- Who waits for the reply to a request. -/
inductive Sender
  | lock (task : ℕ)
  | extend (task attempt : ℕ)
  | drop (task : ℕ)
  | cancel (call task : ℕ)
  deriving DecidableEq, Repr

def Sender.task : Sender → ℕ
  | lock t | extend t _ | drop t | cancel _ t => t

inductive Request (K V : Type)
  | put (key : K) (value : V) (ttl : ℕ)
  | cas (key : K) (value : V) (comparedVersion ttl : ℕ)
  | delete (key : K) (version : ℕ)
  deriving Repr

structure Message (K V : Type) where
  sender : Sender
  request : Request K V
  deriving Repr

/-- The ttl and the deadline of a record. -/
abbrev Expiry := ℕ × ℕ

def Expiry.timedOut (now : ℕ) (l : Expiry) : Bool := isTimeOut now l.2 l.1

theorem timedOut_mono (n m : ℕ) (l : Expiry) (hnm : n ≤ m) (h : Expiry.timedOut n l = true) :
    Expiry.timedOut m l = true := by
  simp only [Expiry.timedOut, isTimeOut, Bool.and_eq_true, decide_eq_true_eq] at h ⊢
  exact ⟨h.1, h.2.trans hnm⟩

structure State (C K V : Type) where
  server : Table K ℕ V Expiry := {}
  lockTaskMap : C → K → Option ℕ := fun _ _ => none
  tasks : List (LockTask C K V) := []
  unlocks : List (UnlockCall C K) := []
  requests : List (Message K V) := []
  replies : List (Sender × Answer) := []

inductive Act (C K V : Type)
  | lock (client : C) (key : K) (value : V) (timeout : Option ℕ)
  | lockStep (task : ℕ)
  | lockReply (task reply : ℕ)
  | lockTimeout (task : ℕ)
  | unlock (client : C) (key : K)
  | unlockStep (call : ℕ)
  | unlockReply (call reply : ℕ)
  | unlockTimeout (call : ℕ)
  | runStep (task : ℕ)
  | runReply (task reply : ℕ)
  | runTimeout (task : ℕ)
  /-- the server runs a request -/
  | serve (request : ℕ)
  /-- the server runs a request for another key -/
  | serveOther
  | tick
  deriving Repr

variable {C K V : Type} [DecidableEq C] [DecidableEq K]

namespace State

def setTask (s : State C K V) (t : ℕ) (task : LockTask C K V) : State C K V :=
  { s with tasks := s.tasks.set t task }

def setMap (s : State C K V) (c : C) (k : K) (t : Option ℕ) : State C K V :=
  { s with lockTaskMap := Function.update s.lockTaskMap c (Function.update (s.lockTaskMap c) k t) }

def setUnlock (s : State C K V) (u : ℕ) (call : UnlockCall C K) : State C K V :=
  { s with unlocks := s.unlocks.set u call }

def send (s : State C K V) (sender : Sender) (request : Request K V) : State C K V :=
  { s with requests := s.requests ++ [⟨sender, request⟩] }

end State

/-- `status.compareAndSet(expected, status)`, when its result is not used. -/
def LockTask.compareAndSet (task : LockTask C K V) (expected status : TaskStatus) : LockTask C K V :=
  if task.status = expected then { task with status := status } else task

omit [DecidableEq C] [DecidableEq K] in
theorem LockTask.compareAndSet_eq (task : LockTask C K V) (expected status : TaskStatus) :
    task.compareAndSet expected status =
      { task with status := if task.status = expected then status else task.status } := by
  unfold LockTask.compareAndSet
  split_ifs <;> rfl

/-- `lock`, up to `putIfAbsent`. -/
def lock (s : State C K V) (c : C) (k : K) (v : V) (timeout : Option ℕ) : State C K V :=
  let preTask := s.lockTaskMap c k
  let s' := { s with tasks := s.tasks ++ [⟨c, k, v, 0, .suspending, false, timeout, preTask, .registered, .idle, 0⟩] }
  match preTask with
  | none => s'.setMap c k (some s.tasks.length)
  | some _ => s'

/-- One step of `lock` after `putIfAbsent` that waits for nothing. -/
def lockStep (s : State C K V) (t : ℕ) (task : LockTask C K V) : Option (State C K V) :=
  match task.pc with
  | .registered =>
    match task.preTask.bind fun p => s.tasks[p]? with
    | none => some (s.setTask t { task with pc := .sending })
    | some pre =>
      if pre.status = .failed then some (s.setTask t { task with pc := .replacing })
      else if task.timeout = none then some (s.setTask t { task with pc := .returned false })
      else some (s.setTask t { task with pc := .sending })
  | .replacing => some ((s.setMap task.client task.key (some t)).setTask t { task with pc := .sending })
  | .sending =>
    some ((s.send (.lock t) (.put task.key task.value (task.timeout.getD DEFAULT_LOCK_TTL_IN_SEC))).setTask t
      { task with pc := .waiting })
  | .refused =>
    let s' := if task.timeout = none ∨ task.preTask ≠ none then s.setMap task.client task.key none else s
    some (s'.setTask t { task with pc := .returned false })
  | .thrown => some ((s.setMap task.client task.key none).setTask t { task with pc := .failed })
  | .answered v => some (s.setTask t { task with version := v, pc := .locked })
  | .locked =>
    if task.timeout = none then some (s.setTask t { task with run := .loop, pc := .leaving })
    else
      let s' := if task.preTask ≠ none then s.setMap task.client task.key (some t) else s
      some (s'.setTask t { task with pc := .leaving })
  | .leaving => some (s.setTask t { task with pc := .returned true })
  | .waiting | .returned _ | .failed => none

/-- `client.put` returns or throws. -/
def lockReply (s : State C K V) (t : ℕ) (task : LockTask C K V) (answer : Answer) : Option (State C K V) :=
  match task.pc, answer with
  | .waiting, .written v => some (s.setTask t { task with pc := .answered v })
  | .waiting, .unmet => some (s.setTask t { task with pc := .refused })
  | _, _ => none

/-- One step of the background task that waits for nothing. -/
def runStep (s : State C K V) (t : ℕ) (task : LockTask C K V) : Option (State C K V) :=
  match task.run with
  | .loop => some (s.setTask t { task with run := if task.isCanceled then .finished else .sleeping })
  | .sleeping => some (s.setTask t { task with run := .extending RETRY_TIMES })
  | .extending 0 => some (s.setTask t { task with run := .unwinding RETRY_TIMES false })
  | .extending (n + 1) =>
    if task.status = .suspending then
      some (s.setTask t { task with status := .running, run := .checking (n + 1) })
    else some (s.setTask t { task with run := .unwinding (RETRY_TIMES - (n + 1)) true })
  | .checking n =>
    -- a cancelled task leaves its status RUNNING here
    some (s.setTask t
      { task with run := if task.isCanceled then .unwinding (RETRY_TIMES - n) true else .sending n })
  | .sending n =>
    some ((s.send (.extend t task.attempt) (.cas task.key task.value task.version EXTEND_TIME_IN_SEC)).setTask t
      { task with run := .waiting n })
  | .answered n v => some (s.setTask t { task with version := v, run := .settling n true })
  | .retrying n =>
    some (s.setTask t { task.compareAndSet .running .suspending with
      run := .extending (n - 1), attempt := task.attempt + 1 })
  | .settling n extended =>
    some (s.setTask t { task.compareAndSet .running .suspending with
      run := if extended then .rechecking n else .unwinding (RETRY_TIMES - n) false
      attempt := task.attempt + 1 })
  | .rechecking n =>
    some (s.setTask t
      { task with run := if task.isCanceled then .dropping n else .unwinding (RETRY_TIMES - n) true })
  | .dropping n =>
    some ((s.send (.drop t) (.delete task.key task.version)).setTask t { task with run := .deleting n })
  | .unwinding (d + 1) result =>
    some (s.setTask t { task.compareAndSet .running .suspending with run := .unwinding d result })
  | .unwinding 0 result => some (s.setTask t { task with run := if result then .loop else .failing })
  | .failing => some (s.setTask t { task with status := .failed, run := .finished })
  | .idle | .waiting _ | .deleting _ | .finished => none

/-- `client.cas` or `client.delete` of the background task returns or throws. -/
def runReply (s : State C K V) (t : ℕ) (task : LockTask C K V) (answer : Answer) : Option (State C K V) :=
  match task.run, answer with
  | .waiting n, .written v => some (s.setTask t { task with run := .answered n v })
  | .waiting n, .unmet => some (s.setTask t { task with run := .settling n false })
  | .deleting n, .removed | .deleting n, .unmet =>
    some (s.setTask t { task with run := .unwinding (RETRY_TIMES - n) true })
  | .deleting n, .missing => some (s.setTask t { task with run := .unwinding (RETRY_TIMES - n) false })
  | _, _ => none

/-- The request fails with another exception, for example a time-out. -/
def runTimeout (s : State C K V) (t : ℕ) (task : LockTask C K V) : Option (State C K V) :=
  match task.run with
  | .waiting n => some (s.setTask t { task with run := .retrying n })
  | .deleting n => some (s.setTask t { task with run := .unwinding (RETRY_TIMES - n) false })
  | _ => none

/-- One step of `unlock` after `lockTaskMap.get` that waits for nothing. -/
def unlockStep (s : State C K V) (u : ℕ) (call : UnlockCall C K) (task : LockTask C K V) :
    Option (State C K V) :=
  match call.pc with
  | .found =>
    some ((s.setTask call.task { task with isCanceled := true }).setUnlock u { call with pc := .canceled })
  | .canceled =>
    if task.status = .suspending then
      some ((s.setTask call.task { task with status := .canceling }).setUnlock u { call with pc := .sending })
    else some (s.setUnlock u { call with pc := .removing (some false) })
  | .sending =>
    some ((s.send (.cancel u call.task) (.delete task.key task.version)).setUnlock u
      { call with pc := .waiting })
  | .restoring result =>
    some ((s.setTask call.task (task.compareAndSet .canceling .suspending)).setUnlock u
      { call with pc := .removing result })
  | .removing result =>
    some ((s.setMap call.client call.key none).setUnlock u { call with pc := .returned result })
  | .waiting | .returned _ => none

def unlockReply (s : State C K V) (u : ℕ) (call : UnlockCall C K) (answer : Answer) : Option (State C K V) :=
  match call.pc, answer with
  | .waiting, .removed => some (s.setUnlock u { call with pc := .restoring (some true) })
  | .waiting, .unmet | .waiting, .missing =>
    some (s.setUnlock u { call with pc := .restoring (some false) })
  | _, _ => none

/-- The server's record, its ghost owner being the task whose request it runs. -/
def execute (server : Table K ℕ V Expiry) (m : Message K V) : Table K ℕ V Expiry × Answer :=
  match m.request with
  | .put key value ttl =>
    server.create Expiry.timedOut key m.sender.task value (ttl, addDeadline ttl server.now)
  | .cas key value comparedVersion ttl =>
    server.replace Expiry.timedOut key m.sender.task comparedVersion value (ttl, addDeadline ttl server.now)
  | .delete key version => server.remove Expiry.timedOut key version

def step (s : State C K V) : Act C K V → Option (State C K V)
  | .lock c k v timeout => some (lock s c k v timeout)
  | .lockStep t => s.tasks[t]?.bind fun task => lockStep s t task
  | .lockReply t j => do
    let task ← s.tasks[t]?
    let reply ← s.replies[j]?
    if reply.1 = .lock t then lockReply s t task reply.2 else none
  | .lockTimeout t => s.tasks[t]?.bind fun task =>
    if task.pc = .waiting then some (s.setTask t { task with pc := .thrown }) else none
  | .unlock c k => some <|
    match s.lockTaskMap c k with
    | none => s
    | some t => { s with unlocks := s.unlocks ++ [⟨c, k, t, .found⟩] }
  | .unlockStep u => do
    let call ← s.unlocks[u]?
    let task ← s.tasks[call.task]?
    unlockStep s u call task
  | .unlockReply u j => do
    let call ← s.unlocks[u]?
    let reply ← s.replies[j]?
    if reply.1 = .cancel u call.task then unlockReply s u call reply.2 else none
  | .unlockTimeout u => s.unlocks[u]?.bind fun call =>
    if call.pc = .waiting then some (s.setUnlock u { call with pc := .restoring none }) else none
  | .runStep t => s.tasks[t]?.bind fun task => runStep s t task
  | .runReply t j => do
    let task ← s.tasks[t]?
    let reply ← s.replies[j]?
    if reply.1 = .extend t task.attempt ∨ reply.1 = .drop t then runReply s t task reply.2 else none
  | .runTimeout t => s.tasks[t]?.bind fun task => runTimeout s t task
  | .serve i => s.requests[i]?.map fun m =>
    { s with server := (execute s.server m).1, replies := s.replies ++ [(m.sender, (execute s.server m).2)] }
  | .serveOther => some { s with server := { s.server with version := s.server.version + 1 } }
  | .tick => some { s with server := { s.server with now := s.server.now + 1 } }

end LockServiceImpl

end Goblin.Client
