import Goblin.Engine.State

/-! The threads of `CommandProcessor::process`, the reply loop, and the steps of a node. -/
namespace Goblin.Engine

open Model Store Execution Option

/-- The entries after `mAppliedIndex` are noops, and the last one is the noop of the expected term. -/
def Raft.onlyNoopsAfter (r : Raft) (appliedIndex expectedTerm : ℕ) : Bool :=
  appliedIndex < r.log.length && (r.log.drop appliedIndex).all (·.bundle.isNone) &&
    r.log.getLast?.any (·.term = expectedTerm)

/-- Whether the entry was committed in its term, once that is settled. -/
def Raft.waitTillCommittedOrQuit (r : Raft) (index term : ℕ) : Option Bool :=
  if r.currentTerm < term then none
  else if r.log.length < index ∧ term < r.currentTerm then some false
  else if r.commitIndex < index then none
  else (r.getEntry index).map fun entry => decide (entry.term = term)

/-- A response before `initSuccessResponse` has filled in anything. -/
def directReply (request : Request) (code : ResponseCode) (message : String) : Reply :=
  ⟨request, Response.fillResponse { latestVersion := kInvalidVersion } code message⟩

def Running.keys (c : Running) : List KeyType :=
  c.request.command.getTargetKeys.getD []

/-- The locks of a command are free: no segment is held by another command unless both only share it.
Every key has a segment of its own, which allows all the runs of coarser segments. -/
def lockable (running : List Running) (c : Command) (keys : List KeyType) : Bool :=
  running.all fun other =>
    (!c.isExclusive && !other.request.command.isExclusive) || keys.all fun key => key ∉ other.keys

/-- What runs between `prepare` and `finish`; `preExecute` is what the callback returns, which stale
reads skip. -/
def Request.program (request : Request) (preExecute : Status) : StoreProg ExecResult :=
  if request.command.isFollowerReadCmd ∨ preExecute.isOK then request.command.execute
  else .ret { status := preExecute }

def Request.dispatch (request : Request) (v : VersionStore) (r : ExecResult) : Option Dispatched :=
  if request.command.isFollowerReadCmd then dispatchFollowerRead request.command v r
  else Execution.dispatch request.command v r

/-- The version that the reply of a read waits for. -/
def Request.replyVersion (request : Request) (v : VersionStore) (events : List Event) : Option ℕ :=
  if request.command.isFollowerReadCmd then maxFollowerReadVersion v.getMaxAllocatedVersion events
  else some (maxReadVersion v.getCurMaxVersion events)

theorem Request.dispatch_cases {request : Request} {v : VersionStore} {r : ExecResult} {d : Dispatched}
    (h : request.dispatch v r = some d) :
    (d.outcome = none ∧ d.versions = v) ∨
    (∃ version response, request.replyVersion v r.events = some version ∧
      d.outcome = some (.replyAsync version response) ∧ d.versions = v) ∨
    (request.command.isFollowerReadCmd = false ∧
      ∃ response bundle, d.outcome = some (.persistAsync v.mNextVersion response bundle) ∧
        d.versions = { v with mNextVersion := VersionStore.successor v.mNextVersion } ∧ bundle ≠ [] ∧
        ∀ e ∈ bundle, e.version = v.mNextVersion) := by
  unfold Request.dispatch at h
  unfold Request.replyVersion
  split_ifs at h ⊢ with hfollower
  · rcases dispatchFollowerRead_cases h with hnone | hreply
    · exact .inl hnone
    · exact .inr (.inl hreply)
  · rcases Execution.dispatch_cases h with hnone | ⟨response, hreply⟩ | hpersist
    · exact .inl hnone
    · exact .inr (.inl ⟨_, response, rfl, hreply⟩)
    · exact .inr (.inr ⟨by simpa using hfollower, hpersist⟩)

namespace Node

section Process

/-- Evictions are guarded by the version of the last milestone. -/
def submit (s : Node) (request : Request) : Option Node :=
  match request with
  | .evict _ version =>
    if version ≤ s.loop.mLastMilestoneKeyVersion then
      some { s with threads := s.threads ++ [⟨request, .enters⟩] }
    else none
  | _ => some { s with threads := s.threads ++ [⟨request, .enters⟩] }

def setGate (s : Node) (i : ℕ) (request : Request) (gate : Gate) : Node :=
  { s with threads := s.threads.set i ⟨request, gate⟩ }

/-- The loop of `process` up to `mBecomeLeaderMutex`, and the second look at `mCurTerm` behind it. -/
def advanceThread (s : Node) (i : ℕ) (th : Thread) : Option Node :=
  match th.gate with
  | .enters => some (s.setGate i th.request (.read s.store.mLogStoreRole s.store.mLogStoreTerm))
  | .read curRole curTerm =>
    if th.request.command.isFollowerReadCmd then some (s.setGate i th.request .passes)
    else if curRole ≠ .Leader then some
      { s with
        threads := s.threads.eraseIdx i
        replies := s.replies ++ [directReply th.request .NOT_LEADER "NotLeaderAnyMore"] }
    else if s.mCurTerm = curTerm then some (s.setGate i th.request .passes)
    else some (s.setGate i th.request (.waits curTerm))
  | .waits curTerm =>
    if s.takeover.isSome then none
    else if s.mCurTerm = curTerm then some (s.setGate i th.request .passes)
    else if s.running.isEmpty then some
      { s with
        threads := s.threads.eraseIdx i
        takeover := some ⟨th.request, curTerm, .waiting⟩ }
    else none
  | .passes => none

def leaderIsReady (s : Node) (expectedTerm : ℕ) : Bool :=
  s.store.mLoadedIndex = s.raft.commitIndex && s.raft.commitIndex = s.raft.getLastLogIndex &&
    s.raft.onlyNoopsAfter s.store.mAppliedIndex expectedTerm

/-- The version of `lastBundle`; the entry at `mAppliedIndex` is asserted to be a bundle. -/
def lastBundleVersion (s : Node) : Option ℕ :=
  if s.store.mAppliedIndex = 0 then some kInvalidVersion
  else ((s.raft.getEntry s.store.mAppliedIndex).bind LogEntry.bundle).map getVersionFromBundle

def clearMemory (s : Node) : Node :=
  { s with stores := { s.stores with mem := s.stores.mem.clear } }

/-- The part of `process` under `mBecomeLeaderMutex`, one shared variable at a time. `callback` is
what `mBecomeLeaderCallBack` returns. -/
def becomeLeader (s : Node) (callback : Status) (t : Takeover) : Option Node :=
  match t.stage with
  | .waiting =>
    if s.raft.currentTerm ≠ t.curTerm then some
      { s.clearMemory with takeover := none, threads := s.threads ++ [⟨t.request, .enters⟩] }
    else if s.leaderIsReady t.curTerm then
      s.lastBundleVersion.map fun maxVersion =>
        { s with takeover := some { t with stage := .ready s.raft.getLastLogIndex maxVersion } }
    else none
  | .ready lastLogIndex maxVersion =>
    if callback.isOK then some
      { s with
        versions := s.versions.storeMaxVersion maxVersion
        takeover := some { t with stage := .recovering lastLogIndex maxVersion } }
    else some
      { s.clearMemory with
        takeover := none
        replies := s.replies ++ [directReply t.request .GENERAL_ERROR "fail after become leader"] }
  | .recovering lastLogIndex _ => some
    { s with
      versions := s.versions.storeNextVersion
      takeover := some { t with stage := .recovered lastLogIndex } }
  | .recovered lastLogIndex =>
    -- `flush` ends in the one of `KVStore` on the read only delegate, which does nothing
    some { s.clearMemory with takeover := some { t with stage := .cleared lastLogIndex } }
  | .cleared lastLogIndex => some
    { s with mCurTerm := t.curTerm, takeover := some { t with stage := .termSet lastLogIndex } }
  | .termSet lastLogIndex => some
    { s with
      store := { s.store with mLastSentLogIndex := lastLogIndex }
      takeover := none
      threads := s.threads ++ [⟨t.request, .passes⟩] }

/-- `prepare` takes the locks. -/
def start (s : Node) (preExecute : Status) (i : ℕ) (th : Thread) : Option Node :=
  th.request.command.getTargetKeys.bind fun keys =>
    if th.gate = .passes ∧ s.takeover.isNone ∧ lockable s.running th.request.command keys then some
      { s with
        threads := s.threads.eraseIdx i
        running := s.running ++ [⟨th.request, .executing (th.request.program preExecute)⟩] }
    else none

/-- One call of `execute` into the store. -/
def call (s : Node) (i : ℕ) (c : Running) : Option Node :=
  match c.stage with
  | .executing (.call o next) => some
    { s with
      stores := (s.stores.answer o).2
      running := s.running.set i ⟨c.request, .executing (next (s.stores.answer o).1)⟩ }
  | _ => none

/-- The task or the bundle that a command leaves for the other loops. -/
def handOver (s : Node) (request : Request) : Option Outcome → Node
  | some (.replyAsync version response) =>
    { s with tasks := s.tasks ++
        [⟨0, s.mCurTerm, version, request.command.isFollowerReadCmd, request, response, []⟩] }
  | some (.persistAsync version response bundle) =>
    { s with store := { s.store with
        mPersistQueue := s.store.mPersistQueue ++ [⟨bundle, version, s.mCurTerm, request, response⟩] } }
  | _ => s

def dispatch (s : Node) (i : ℕ) (c : Running) : Option Node :=
  match c.stage with
  | .executing (.ret r) =>
    (c.request.dispatch s.versions r).map fun d =>
      { s with
        versions := d.versions
        running := s.running.set i ⟨c.request, .finishing r d⟩ : Node }.handOver c.request d.outcome
  | _ => none

/-- The reply that is sent after `finish` when there was an error or no event. -/
def lateReply (s : Node) (request : Request) (r : ExecResult) : Option Outcome → Option (List Reply)
  | some _ => some []
  | none => (errorReply request.command s.versions r).map fun response => [⟨request, response⟩]

def finish (s : Node) (i : ℕ) (c : Running) : Option Node :=
  match c.stage with
  | .finishing r d =>
    (s.lateReply c.request r d.outcome).map fun replies =>
      { s with
        stores := c.request.command.finish s.stores d.events
        running := s.running.eraseIdx i
        replies := s.replies ++ replies }
  | _ => none

end Process

section Reply

/-- Whether the task is answered with success, once it can be answered. -/
def isCommitted (s : Node) (task : Task) : Option Bool :=
  if task.mIndex ≠ 0 then s.raft.waitTillCommittedOrQuit task.mIndex task.mTerm
  else if !task.followerReadTask ∧ task.mVersion > s.versions.getCurMaxVersion then none
  else some true

def replyTask (s : Node) (i : ℕ) (task : Task) : Option Node :=
  (s.isCommitted task).map fun committed =>
    { s with
      tasks := s.tasks.eraseIdx i
      replies := s.replies ++ [⟨task.request, if committed then task.response.fillResponse .OK "Success"
        else task.response.fillResponse .NOT_LEADER "NotLeaderAnyMore"⟩]
      toUpdate := s.toUpdate ++ [.enters task.mVersion] }

/-- `updateCurMaxVersion`, after the response was sent; its mutex is held from the load to the store. -/
def updateCurMaxVersion (s : Node) (i : ℕ) : Update → Option Node
  | .enters newVersion =>
    if newVersion < s.versions.mMaxVersion then some { s with toUpdate := s.toUpdate.eraseIdx i }
    else some { s with toUpdate := s.toUpdate.set i (.waits newVersion) }
  | .waits newVersion =>
    if s.toUpdate.any fun u => u matches .loaded _ _ then none
    else some { s with toUpdate := s.toUpdate.set i (.loaded newVersion s.versions.mMaxVersion) }
  | .loaded newVersion mMaxVersion => some
    { s with
      versions := s.versions.storeMaxVersion (max newVersion mMaxVersion)
      toUpdate := s.toUpdate.eraseIdx i }

end Reply

end Node

inductive Act
  | tick (now : ℕ)
  | raft (a : Raft.Act)
  | loadBundles (size : ℕ)
  | loadNextBundle
  | applyBundle
  | commitMilestone
  | refreshRoleAndTerm
  | dequeue
  | send
  | compareExchange
  | sendBatch
  | submit (request : Request)
  | advance (i : ℕ)
  | becomeLeader (callback : Status)
  | start (i : ℕ) (preExecute : Status)
  | call (i : ℕ)
  | dispatch (i : ℕ)
  | finish (i : ℕ)
  | replyTask (i : ℕ)
  | updateCurMaxVersion (i : ℕ)

def step (s : Node) : Act → Option Node
  | .tick now =>
    if s.stores.now ≤ now then some { s with stores := { s.stores with now := now } } else none
  | .raft a => (s.raft.step a).map fun r => { s with raft := r }
  | .loadBundles size => s.loadBundles size
  | .loadNextBundle => s.loadNextBundle
  | .applyBundle => s.applyBundle
  | .commitMilestone => s.commitMilestone
  -- the persist loop does one thing at a time
  | .refreshRoleAndTerm => if s.store.dequeuing.isNone then some s.refreshRoleAndTerm else none
  | .dequeue => s.dequeue
  | .send => s.send
  | .compareExchange => s.compareExchange
  | .sendBatch => if s.store.dequeuing.isNone then some s.sendBatch else none
  | .submit request => s.submit request
  | .advance i => s.threads[i]?.bind (s.advanceThread i)
  | .becomeLeader callback => s.takeover.bind (s.becomeLeader callback)
  | .start i preExecute => s.threads[i]?.bind (s.start preExecute i)
  | .call i => s.running[i]?.bind (s.call i)
  | .dispatch i => s.running[i]?.bind (s.dispatch i)
  | .finish i => s.running[i]?.bind (s.finish i)
  | .replyTask i => s.tasks[i]?.bind (s.replyTask i)
  | .updateCurMaxVersion i => s.toUpdate[i]?.bind (s.updateCurMaxVersion i)

/-- The steps as a relation, one constructor for each outcome. -/
inductive Steps (s : Node) : Act → Node → Prop
  | tick (now : ℕ) (hle : s.stores.now ≤ now) :
      Steps s (.tick now) { s with stores := { s.stores with now := now } }
  | raft (a : Raft.Act) (r : Raft) (hr : s.raft.Steps r) : Steps s (.raft a) { s with raft := r }
  | load (size : ℕ) (hcached : s.store.mCachedBundles = []) (hidle : s.loop.applying = none)
      (hpos : 0 < size) (hsize : s.store.mLoadedIndex + size ≤ s.raft.commitIndex) :
      Steps s (.loadBundles size) { s with store := { s.store with
        mLoadedIndex := s.store.mLoadedIndex + size
        mCachedBundles := s.raft.loadBundles (s.store.mLoadedIndex + 1) size } }
  | pop (b : List Event × ℕ) (rest : List (List Event × ℕ))
      (hcached : s.store.mCachedBundles = b :: rest) (hidle : s.loop.applying = none) :
      Steps s .loadNextBundle
        { s with
          store := { s.store with
            mCachedBundles := rest
            mAppliedIndex := max s.store.mAppliedIndex b.2 }
          loop := { s.loop with applying := some b } }
  | apply (b : List Event × ℕ) (happlying : s.loop.applying = some b) :
      Steps s .applyBundle
        { s with
          stores := { s.stores with db := Event.applyAll s.stores.db b.1 }
          loop := { s.loop with appliedIndex := b.2, appliedBundle := b.1, applying := none } }
  | flush (hidle : s.loop.applying = none) (hlt : s.loop.mLastMilestone < s.loop.appliedIndex) :
      Steps s .commitMilestone
        { s with
          stores := { s.stores with db := s.stores.db.commit s.loop.appliedIndex }
          loop := { s.loop with
            mLastMilestone := s.loop.appliedIndex
            mLastMilestoneKeyVersion := getVersionFromBundle s.loop.appliedBundle } }
  | refresh : Steps s .refreshRoleAndTerm s.refreshRoleAndTerm
  | dequeue (e : PersistEntry) (rest : List PersistEntry) (hqueue : s.store.mPersistQueue = e :: rest)
      (hidle : s.store.dequeuing = none) :
      Steps s .dequeue { s with store := { s.store with mPersistQueue := rest, dequeuing := some (.popped e) } }
  | send (e : PersistEntry) (hpopped : s.store.dequeuing = some (.popped e)) : Steps s .send (s.sendNext e)
  | compareExchange (previousLogIndex : ℕ) (hprevious : s.store.dequeuing = some (.sent previousLogIndex)) :
      Steps s .compareExchange { s with store := { s.store with
        mLastSentLogIndex :=
          if s.store.mLastSentLogIndex = previousLogIndex then previousLogIndex + 1
          else s.store.mLastSentLogIndex
        dequeuing := none } }
  | sendBatch : Steps s .sendBatch s.sendBatch
  | submit (request : Request)
      (hevict : ∀ keys version, request = .evict keys version →
        version ≤ s.loop.mLastMilestoneKeyVersion) :
      Steps s (.submit request) { s with threads := s.threads ++ [⟨request, .enters⟩] }
  | read (i : ℕ) (th : Thread) (hth : s.threads[i]? = some th) (hgate : th.gate = .enters) :
      Steps s (.advance i) (s.setGate i th.request (.read s.store.mLogStoreRole s.store.mLogStoreTerm))
  | pass (i : ℕ) (th : Thread) (hth : s.threads[i]? = some th)
      (hpass : th.request.command.isFollowerReadCmd ∨
        th.gate = .read .Leader s.mCurTerm ∨ th.gate = .waits s.mCurTerm) :
      Steps s (.advance i) (s.setGate i th.request .passes)
  | notLeader (i : ℕ) (th : Thread) (hth : s.threads[i]? = some th) :
      Steps s (.advance i)
        { s with
          threads := s.threads.eraseIdx i
          replies := s.replies ++ [directReply th.request .NOT_LEADER "NotLeaderAnyMore"] }
  | wait (i : ℕ) (th : Thread) (curTerm : ℕ) (hth : s.threads[i]? = some th)
      (hgate : th.gate = .read .Leader curTerm) (hne : s.mCurTerm ≠ curTerm) :
      Steps s (.advance i) (s.setGate i th.request (.waits curTerm))
  | takeOver (i : ℕ) (th : Thread) (curTerm : ℕ) (hth : s.threads[i]? = some th)
      (hgate : th.gate = .waits curTerm) (hfree : s.takeover = none) (hne : s.mCurTerm ≠ curTerm)
      (hidle : s.running = []) :
      Steps s (.advance i)
        { s with
          threads := s.threads.eraseIdx i
          takeover := some ⟨th.request, curTerm, .waiting⟩ }
  | stepDown (callback : Status) (tk : Takeover) (htk : s.takeover = some tk) (hstage : tk.stage = .waiting)
      (hne : s.raft.currentTerm ≠ tk.curTerm) :
      Steps s (.becomeLeader callback)
        { s.clearMemory with takeover := none, threads := s.threads ++ [⟨tk.request, .enters⟩] }
  | ready (callback : Status) (tk : Takeover) (maxVersion : ℕ) (htk : s.takeover = some tk)
      (hstage : tk.stage = .waiting) (hterm : s.raft.currentTerm = tk.curTerm) (hready : s.leaderIsReady tk.curTerm)
      (hversion : s.lastBundleVersion = some maxVersion) :
      Steps s (.becomeLeader callback)
        { s with takeover := some { tk with stage := .ready s.raft.getLastLogIndex maxVersion } }
  | callbackFails (callback : Status) (tk : Takeover) (lastLogIndex maxVersion : ℕ) (htk : s.takeover = some tk)
      (hstage : tk.stage = .ready lastLogIndex maxVersion) :
      Steps s (.becomeLeader callback)
        { s.clearMemory with
          takeover := none
          replies := s.replies ++
            [directReply tk.request .GENERAL_ERROR "fail after become leader"] }
  | recover (callback : Status) (tk : Takeover) (lastLogIndex maxVersion : ℕ) (htk : s.takeover = some tk)
      (hstage : tk.stage = .ready lastLogIndex maxVersion) :
      Steps s (.becomeLeader callback)
        { s with
          versions := s.versions.storeMaxVersion maxVersion
          takeover := some { tk with stage := .recovering lastLogIndex maxVersion } }
  | recovered (callback : Status) (tk : Takeover) (lastLogIndex maxVersion : ℕ) (htk : s.takeover = some tk)
      (hstage : tk.stage = .recovering lastLogIndex maxVersion) :
      Steps s (.becomeLeader callback)
        { s with
          versions := s.versions.storeNextVersion
          takeover := some { tk with stage := .recovered lastLogIndex } }
  | clear (callback : Status) (tk : Takeover) (lastLogIndex : ℕ) (htk : s.takeover = some tk)
      (hstage : tk.stage = .recovered lastLogIndex) :
      Steps s (.becomeLeader callback)
        { s.clearMemory with takeover := some { tk with stage := .cleared lastLogIndex } }
  | setTerm (callback : Status) (tk : Takeover) (lastLogIndex : ℕ) (htk : s.takeover = some tk)
      (hstage : tk.stage = .cleared lastLogIndex) :
      Steps s (.becomeLeader callback)
        { s with mCurTerm := tk.curTerm, takeover := some { tk with stage := .termSet lastLogIndex } }
  | lead (callback : Status) (tk : Takeover) (lastLogIndex : ℕ) (htk : s.takeover = some tk)
      (hstage : tk.stage = .termSet lastLogIndex) :
      Steps s (.becomeLeader callback)
        { s with
          store := { s.store with mLastSentLogIndex := lastLogIndex }
          takeover := none
          threads := s.threads ++ [⟨tk.request, .passes⟩] }
  | start (i : ℕ) (th : Thread) (preExecute : Status) (keys : List KeyType)
      (hth : s.threads[i]? = some th) (hkeys : th.request.command.getTargetKeys = some keys)
      (hgate : th.gate = .passes) (hfree : s.takeover = none)
      (hlock : lockable s.running th.request.command keys) :
      Steps s (.start i preExecute)
        { s with
          threads := s.threads.eraseIdx i
          running := s.running ++ [⟨th.request, .executing (th.request.program preExecute)⟩] }
  | call (i : ℕ) (c : Running) (o : StoreOp) (next : o.Res → StoreProg ExecResult)
      (hc : s.running[i]? = some c) (hstage : c.stage = .executing (.call o next)) :
      Steps s (.call i)
        { s with
          stores := (s.stores.answer o).2
          running := s.running.set i ⟨c.request, .executing (next (s.stores.answer o).1)⟩ }
  | refuse (i : ℕ) (c : Running) (r : ExecResult) (d : Dispatched) (hc : s.running[i]? = some c)
      (hstage : c.stage = .executing (.ret r)) (hd : c.request.dispatch s.versions r = some d)
      (hout : d.outcome = none) :
      Steps s (.dispatch i) { s with running := s.running.set i ⟨c.request, .finishing r d⟩ }
  | dispatchRead (i : ℕ) (c : Running) (r : ExecResult) (d : Dispatched) (version : ℕ) (response : Response)
      (hc : s.running[i]? = some c) (hstage : c.stage = .executing (.ret r))
      (hd : c.request.dispatch s.versions r = some d) (hout : d.outcome = some (.replyAsync version response))
      (hversion : c.request.replyVersion s.versions r.events = some version) :
      Steps s (.dispatch i)
        { s with
          running := s.running.set i ⟨c.request, .finishing r d⟩
          tasks := s.tasks ++
            [⟨0, s.mCurTerm, version, c.request.command.isFollowerReadCmd, c.request, response, []⟩] }
  | dispatchWrite (i : ℕ) (c : Running) (r : ExecResult) (d : Dispatched) (response : Response) (bundle : List Event)
      (hc : s.running[i]? = some c) (hstage : c.stage = .executing (.ret r))
      (hd : c.request.dispatch s.versions r = some d)
      (hout : d.outcome = some (.persistAsync s.versions.mNextVersion response bundle))
      (hv : d.versions = { s.versions with mNextVersion := VersionStore.successor s.versions.mNextVersion })
      (hcmd : c.request.command.isFollowerReadCmd = false) (hne : bundle ≠ [])
      (hall : ∀ e ∈ bundle, e.version = s.versions.mNextVersion) :
      Steps s (.dispatch i)
        { s with
          versions := { s.versions with mNextVersion := VersionStore.successor s.versions.mNextVersion }
          running := s.running.set i ⟨c.request, .finishing r d⟩
          store := { s.store with mPersistQueue := s.store.mPersistQueue ++
            [⟨bundle, s.versions.mNextVersion, s.mCurTerm, c.request, response⟩] } }
  | finish (i : ℕ) (c : Running) (r : ExecResult) (d : Dispatched) (replies : List Reply)
      (hc : s.running[i]? = some c) (hstage : c.stage = .finishing r d)
      (hreplies : s.lateReply c.request r d.outcome = some replies) :
      Steps s (.finish i)
        { s with
          stores := c.request.command.finish s.stores d.events
          running := s.running.eraseIdx i
          replies := s.replies ++ replies }
  | reply (i : ℕ) (task : Task) (committed : Bool) (htask : s.tasks[i]? = some task)
      (hcommitted : s.isCommitted task = some committed) :
      Steps s (.replyTask i)
        { s with
          tasks := s.tasks.eraseIdx i
          replies := s.replies ++ [⟨task.request,
            if committed then task.response.fillResponse .OK "Success"
            else task.response.fillResponse .NOT_LEADER "NotLeaderAnyMore"⟩]
          toUpdate := s.toUpdate ++ [.enters task.mVersion] }
  | skip (i newVersion : ℕ) (hupdate : s.toUpdate[i]? = some (.enters newVersion)) :
      Steps s (.updateCurMaxVersion i) { s with toUpdate := s.toUpdate.eraseIdx i }
  | look (i newVersion : ℕ) (hupdate : s.toUpdate[i]? = some (.enters newVersion)) :
      Steps s (.updateCurMaxVersion i) { s with toUpdate := s.toUpdate.set i (.waits newVersion) }
  | loadMax (i newVersion : ℕ) (hupdate : s.toUpdate[i]? = some (.waits newVersion)) :
      Steps s (.updateCurMaxVersion i)
        { s with toUpdate := s.toUpdate.set i (.loaded newVersion s.versions.mMaxVersion) }
  | storeMax (i newVersion mMaxVersion : ℕ) (hupdate : s.toUpdate[i]? = some (.loaded newVersion mMaxVersion)) :
      Steps s (.updateCurMaxVersion i)
        { s with
          versions := s.versions.storeMaxVersion (max newVersion mMaxVersion)
          toUpdate := s.toUpdate.eraseIdx i }

section Inversion

variable {s t : Node} {i : ℕ}

theorem Node.submit_steps {request : Request} (h : s.submit request = some t) :
    Steps s (.submit request) t := by
  unfold Node.submit at h
  split at h
  · split_ifs at h with hle
    cases h
    refine .submit _ fun keys version he => ?_
    cases he
    exact hle
  · rename_i hne
    cases h
    exact .submit request fun keys version he => absurd he (hne keys version)

theorem Node.advanceThread_steps {th : Thread} (hth : s.threads[i]? = some th)
    (h : s.advanceThread i th = some t) : Steps s (.advance i) t := by
  unfold Node.advanceThread at h
  split at h
  · rename_i hgate
    cases h
    exact .read i th hth hgate
  · rename_i curRole curTerm hgate
    split_ifs at h with hstale hrole hterm <;> cases h
    · exact .pass i th hth (.inl hstale)
    · exact .notLeader i th hth
    · obtain rfl : curRole = .Leader := not_not.mp hrole
      exact .pass i th hth (.inr (.inl (hterm ▸ hgate)))
    · obtain rfl : curRole = .Leader := not_not.mp hrole
      exact .wait i th curTerm hth hgate hterm
  · rename_i curTerm hgate
    split_ifs at h with htk hterm hidle <;> cases h
    · exact .pass i th hth (.inr (.inr (hterm ▸ hgate)))
    · exact .takeOver i th curTerm hth hgate (by simpa using htk) hterm (by simpa using hidle)
  · cases h

theorem Node.becomeLeader_steps {callback : Status} {tk : Takeover} (htk : s.takeover = some tk)
    (h : s.becomeLeader callback tk = some t) : Steps s (.becomeLeader callback) t := by
  unfold Node.becomeLeader at h
  split at h
  · rename_i hstage
    split_ifs at h with hterm hready
    · cases h
      exact .stepDown callback tk htk hstage hterm
    · obtain ⟨version, hversion, rfl⟩ := map_eq_some_iff.mp h
      exact .ready callback tk version htk hstage (not_not.mp hterm) hready hversion
  · rename_i lastLogIndex maxVersion hstage
    split_ifs at h <;> cases h
    · exact .recover callback tk lastLogIndex maxVersion htk hstage
    · exact .callbackFails callback tk lastLogIndex maxVersion htk hstage
  · rename_i lastLogIndex maxVersion hstage
    cases h
    exact .recovered callback tk lastLogIndex maxVersion htk hstage
  · rename_i lastLogIndex hstage
    cases h
    exact .clear callback tk lastLogIndex htk hstage
  · rename_i lastLogIndex hstage
    cases h
    exact .setTerm callback tk lastLogIndex htk hstage
  · rename_i lastLogIndex hstage
    cases h
    exact .lead callback tk lastLogIndex htk hstage

theorem Node.updateCurMaxVersion_steps {u : Update} (hu : s.toUpdate[i]? = some u)
    (h : s.updateCurMaxVersion i u = some t) : Steps s (.updateCurMaxVersion i) t := by
  cases u with
  | enters newVersion =>
    simp only [Node.updateCurMaxVersion] at h
    split_ifs at h <;> cases h
    · exact .skip i newVersion hu
    · exact .look i newVersion hu
  | waits newVersion =>
    simp only [Node.updateCurMaxVersion] at h
    split_ifs at h
    cases h
    exact .loadMax i newVersion hu
  | loaded newVersion mMaxVersion =>
    cases h
    exact .storeMax i newVersion mMaxVersion hu

theorem Node.loadBundles_steps {size : ℕ} (h : s.loadBundles size = some t) : Steps s (.loadBundles size) t := by
  unfold Node.loadBundles at h
  split_ifs at h with hl
  cases h
  exact .load size (List.isEmpty_iff.mp hl.1) hl.2.1 hl.2.2.1 hl.2.2.2

theorem Node.loadNextBundle_steps (h : s.loadNextBundle = some t) : Steps s .loadNextBundle t := by
  unfold Node.loadNextBundle at h
  split at h
  · rename_i hcached hidle
    cases h
    exact .pop _ _ hcached hidle
  · cases h

theorem Node.applyBundle_steps (h : s.applyBundle = some t) : Steps s .applyBundle t := by
  unfold Node.applyBundle at h
  split at h
  · rename_i happlying
    cases h
    exact .apply _ happlying
  · cases h

theorem Node.commitMilestone_steps (h : s.commitMilestone = some t) : Steps s .commitMilestone t := by
  unfold Node.commitMilestone at h
  split_ifs at h with hc
  cases h
  exact .flush hc.1 hc.2

theorem Node.dequeue_steps (h : s.dequeue = some t) : Steps s .dequeue t := by
  unfold Node.dequeue at h
  split at h
  · rename_i e rest hqueue hidle
    cases h
    exact .dequeue e rest hqueue hidle
  · cases h

theorem Node.send_steps (h : s.send = some t) : Steps s .send t := by
  unfold Node.send at h
  split at h
  · rename_i e hpopped
    cases h
    exact .send e hpopped
  · cases h

theorem Node.compareExchange_steps (h : s.compareExchange = some t) : Steps s .compareExchange t := by
  unfold Node.compareExchange at h
  split at h
  · rename_i previousLogIndex hprevious
    cases h
    exact .compareExchange previousLogIndex hprevious
  · cases h

theorem Node.start_steps {preExecute : Status} {th : Thread} (hth : s.threads[i]? = some th)
    (h : s.start preExecute i th = some t) : Steps s (.start i preExecute) t := by
  obtain ⟨keys, hkeys, h⟩ := bind_eq_some_iff.mp h
  split_ifs at h with hs
  cases h
  exact .start i th preExecute keys hth hkeys hs.1 (isNone_iff_eq_none.mp hs.2.1) hs.2.2

section Running

variable {c : Running} (hc : s.running[i]? = some c)

include hc

theorem Node.call_steps (h : s.call i c = some t) : Steps s (.call i) t := by
  unfold Node.call at h
  split at h
  · rename_i o next hstage
    cases h
    exact .call i c o next hc hstage
  · cases h

theorem Node.dispatch_steps (h : s.dispatch i c = some t) : Steps s (.dispatch i) t := by
  unfold Node.dispatch at h
  split at h
  · rename_i r hstage
    obtain ⟨d, hd, rfl⟩ := map_eq_some_iff.mp h
    rcases Request.dispatch_cases hd with ⟨hout, hv⟩ | ⟨version, response, hversion, hout, hv⟩ |
        ⟨hcmd, response, bundle, hout, hv, hne, hall⟩ <;>
      rw [hout, hv]
    · exact .refuse i c r d hc hstage hd hout
    · exact .dispatchRead i c r d version response hc hstage hd hout hversion
    · exact .dispatchWrite i c r d response bundle hc hstage hd hout hv hcmd hne hall
  · cases h

theorem Node.finish_steps (h : s.finish i c = some t) : Steps s (.finish i) t := by
  unfold Node.finish at h
  split at h
  · rename_i r d hstage
    obtain ⟨replies, hreplies, rfl⟩ := map_eq_some_iff.mp h
    exact .finish i c r d replies hc hstage hreplies
  · cases h

end Running

theorem steps_of_step {a : Act} (h : step s a = some t) : Steps s a t := by
  cases a with
  | tick now =>
    simp only [step] at h
    split_ifs at h with hle
    cases h
    exact .tick now hle
  | raft a =>
    obtain ⟨r, hr, rfl⟩ := map_eq_some_iff.mp h
    exact .raft a r (Raft.steps_of_step hr)
  | loadBundles size => exact Node.loadBundles_steps h
  | loadNextBundle => exact Node.loadNextBundle_steps h
  | applyBundle => exact Node.applyBundle_steps h
  | commitMilestone => exact Node.commitMilestone_steps h
  | refreshRoleAndTerm =>
    simp only [step] at h
    split_ifs at h
    cases h
    exact .refresh
  | dequeue => exact Node.dequeue_steps h
  | send => exact Node.send_steps h
  | compareExchange => exact Node.compareExchange_steps h
  | sendBatch =>
    simp only [step] at h
    split_ifs at h
    cases h
    exact .sendBatch
  | submit request => exact Node.submit_steps h
  | advance i =>
    obtain ⟨th, hth, h⟩ := bind_eq_some_iff.mp h
    exact Node.advanceThread_steps hth h
  | becomeLeader callback =>
    obtain ⟨tk, htk, h⟩ := bind_eq_some_iff.mp h
    exact Node.becomeLeader_steps htk h
  | start i preExecute =>
    obtain ⟨th, hth, h⟩ := bind_eq_some_iff.mp h
    exact Node.start_steps hth h
  | call i =>
    obtain ⟨c, hc, h⟩ := bind_eq_some_iff.mp h
    exact Node.call_steps hc h
  | dispatch i =>
    obtain ⟨c, hc, h⟩ := bind_eq_some_iff.mp h
    exact Node.dispatch_steps hc h
  | finish i =>
    obtain ⟨c, hc, h⟩ := bind_eq_some_iff.mp h
    exact Node.finish_steps hc h
  | replyTask i =>
    obtain ⟨task, htask, h⟩ := bind_eq_some_iff.mp h
    obtain ⟨committed, hcommitted, rfl⟩ := map_eq_some_iff.mp h
    exact .reply i task committed htask hcommitted
  | updateCurMaxVersion i =>
    obtain ⟨u, hu, h⟩ := bind_eq_some_iff.mp h
    exact Node.updateCurMaxVersion_steps hu h

end Inversion

end Goblin.Engine
