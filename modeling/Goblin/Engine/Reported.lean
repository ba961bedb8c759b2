import Goblin.Engine.Acknowledge
import Goblin.Engine.Sequence

/-! The version that `Connect` reports, against the newest version that is committed. -/
namespace Goblin.Engine

open Model Store Lib Execution List Option

/-- The version of the newest bundle that is committed. -/
def Node.newest (s : Node) : ℕ :=
  newestVersion (s.raft.log.take s.raft.committed)

/-- Versions that are raised without a commit are committed all the same: what a stale read has found,
all that was allocated when it has not found a key, and what a rejected write was given. -/
def RaisesCommitted (s : Node) : Act → Prop
  | .dispatch i => ∀ c r, s.running[i]? = some c → c.stage = .executing (.ret r) →
      c.request.command.isFollowerReadCmd → ∀ e, .read e ∈ r.events →
        if e.mIsNotFound then s.versions.mNextVersion ≠ 0 ∧ s.versions.mNextVersion ≤ s.newest + 1
        else e.mVersion ≤ s.newest
  | .replyTask i => ∀ task, s.tasks[i]? = some task → s.isCommitted task = some false →
      task.mVersion ≤ s.newest
  | _ => True

/-- The version stays with the log: next to the above, no older version comes between the stores of a new leader, and
what a follower receives is in order. -/
def StaysWithLog (s : Node) (a : Act) : Prop :=
  Quiet s a ∧ RaisesCommitted s a ∧ ∀ log, a = .raft (.receive log) → Ordered log

/-- The largest version that a call of `updateCurMaxVersion` may still store. -/
def Update.version : Update → ℕ
  | .enters newVersion => newVersion
  | .waits newVersion => newVersion
  | .loaded newVersion mMaxVersion => max newVersion mMaxVersion

def TakeoverStage.maxVersion : TakeoverStage → Option ℕ
  | .ready _ maxVersion => some maxVersion
  | _ => none

/-- `Connect` has no event, so it is answered when it finishes. -/
def Running.Silent (c : Running) : Prop :=
  match c.stage with
  | .executing p => ∃ r, p = .ret r ∧ r.events = []
  | .finishing _ d => d.outcome = none

structure Connects (s : Node) : Prop where
  running : ∀ c ∈ s.running, c.request = .connect → c.Silent
  tasks : ∀ task ∈ s.tasks, task.request ≠ .connect
  queue : ∀ e ∈ s.store.waiting, e.request ≠ .connect

structure Reported (s : Node) : Prop where
  sequenced : Sequenced s
  connects : Connects s
  max_le : s.versions.mMaxVersion ≤ s.newest
  toUpdate_le : ∀ u ∈ s.toUpdate, u.version ≤ s.newest
  ready_le : ∀ tk, s.takeover = some tk → ∀ v ∈ tk.stage.maxVersion, v ≤ s.newest
  stale_le : ∀ task ∈ s.tasks, task.followerReadTask → task.mVersion ≤ s.newest
  replies_le : ∀ reply ∈ s.replies, reply.request = .connect → reply.response.latestVersion ≤ s.newest

theorem Raft.Steps.newest_le {r t : Raft} (ht : r.Steps t) (hlen : r.committed ≤ r.log.length)
    (hord : Ordered t.log) :
    newestVersion (r.log.take r.committed) ≤ newestVersion (t.log.take t.committed) := by
  have hkeep : t.log.take r.committed = r.log.take r.committed := by
    cases ht with
    | elect term helect | accept req rest hreq hrole hterm hindex => exact take_append_of_le_length hlen
    | receive log hrole hlog => exact hlog.2.1
    | _ => rfl
  rw [← hkeep]
  exact hord.newestVersion_take_mono ht.committed_le

theorem Raft.log_of_follower {r t : Raft} {a : Raft.Act} (h : r.step a = some t) (hrole : t.role = .Follower) :
    t.log = r.log ∨ a = .receive t.log := by
  cases a with
  | receive log =>
    simp only [Raft.step] at h
    split_ifs at h
    cases h
    exact .inr rfl
  | elect term =>
    simp only [Raft.step] at h
    split_ifs at h
    cases h
    cases hrole
  | accept =>
    simp only [Raft.step] at h
    split at h
    · cases h
    · split_ifs at h with hlead <;> cases h
      · cases hlead.1.symm.trans hrole
      · exact .inl rfl
  | follow | commit =>
    simp only [Raft.step] at h
    split_ifs at h
    cases h
    exact .inl rfl

theorem maxFollowerReadVersion_le {maxAllocated bound : ℕ} {events : List Event} {version : ℕ}
    (h : maxFollowerReadVersion maxAllocated events = some version)
    (hread : ∀ e, .read e ∈ events → (if e.mIsNotFound then maxAllocated else e.mVersion) ≤ bound) :
    version ≤ bound := by
  suffices hgen : ∀ (es : List Event) (m : ℕ), m ≤ bound → (∀ e ∈ es, e ∈ events) →
      es.foldlM (fun m e => (followerReadVersion maxAllocated e).map (max m)) m = some version →
        version ≤ bound from hgen events kInvalidVersion (Nat.zero_le _) (fun _ he => he) h
  intro es m hm hes hfold
  induction es generalizing m with
  | nil =>
    cases hfold
    exact hm
  | cons e es ih =>
    obtain ⟨m', hm', hfold⟩ := bind_eq_some_iff.mp hfold
    obtain ⟨v, hv, rfl⟩ := map_eq_some_iff.mp hm'
    refine ih (max m v) (max_le hm ?_) (fun f hf => hes f (mem_cons_of_mem _ hf)) hfold
    cases e with
    | read e =>
      cases hv
      exact hread e (hes _ mem_cons_self)
    | _ => cases hv

namespace Connects

variable {s t : Node}

/-- A `Connect` has no outcome. -/
theorem outcome_eq_none (h : Connects s) {i : ℕ} {c : Running} {r : ExecResult} {d : Dispatched}
    (hc : s.running[i]? = some c) (hstage : c.stage = .executing (.ret r))
    (hd : c.request.dispatch s.versions r = some d) (hconnect : c.request = .connect) : d.outcome = none := by
  have hs := h.running c (mem_of_getElem? hc) hconnect
  simp only [Running.Silent, hstage] at hs
  obtain ⟨_, hr, hevents⟩ := hs
  cases hr
  rw [hconnect] at hd
  have hfail : hasFailed r = true := by simp [hasFailed, hevents]
  simp only [Request.dispatch, Request.command, ConnectCommand, Bool.false_eq_true, if_false,
    Execution.dispatch, hfail, if_true] at hd
  cases hd
  rfl

theorem setRunning (h : Connects s) {i : ℕ} {c : Running} (hsilent : c.request = .connect → c.Silent) :
    ∀ c' ∈ s.running.set i c, c'.request = .connect → c'.Silent := by
  intro c' hc'
  rcases mem_or_eq_of_mem_set hc' with hc' | rfl
  · exact h.running c' hc'
  · exact hsilent

theorem step (h : Connects s) {a : Act} (ht : Steps s a t) : Connects t := by
  cases ht with
  | dequeue e rest hqueue hidle =>
    exact { h with queue := by rw [RaftEventStore.waiting_dequeue hqueue hidle]; exact h.queue }
  | send e hpopped =>
    have hqueue := h.queue
    rw [RaftEventStore.waiting_of_popped hpopped] at hqueue
    exact { h with
      tasks := forall_mem_append.mpr
        ⟨h.tasks, forall_mem_singleton.mpr (hqueue e mem_cons_self)⟩
      queue := fun e' he' => hqueue e' (mem_cons_of_mem _ he') }
  | compareExchange previousLogIndex hprevious =>
    have hqueue := h.queue
    rw [RaftEventStore.waiting_of_sent hprevious] at hqueue
    exact { h with queue := hqueue }
  | start i th preExecute keys hth hkeys hgate hfree hlock =>
    refine { h with running := fun c hc => ?_ }
    rcases mem_append.mp hc with hc | hc
    · exact h.running c hc
    · rw [mem_singleton.mp hc]
      intro hconnect
      change th.request = .connect at hconnect
      change ∃ r, th.request.program preExecute = .ret r ∧ r.events = []
      rw [hconnect]
      unfold Request.program
      split_ifs
      exacts [⟨_, rfl, rfl⟩, ⟨_, rfl, rfl⟩]
  | call i c o next hc hstage =>
    have hne : c.request ≠ .connect := by
      intro hconnect
      have hs := h.running c (mem_of_getElem? hc) hconnect
      simp only [Running.Silent, hstage] at hs
      obtain ⟨_, hr, -⟩ := hs
      cases hr
    exact { h with running := h.setRunning fun hconnect => absurd hconnect hne }
  | refuse i c r d hc hstage hd hout => exact { h with running := h.setRunning fun _ => hout }
  | dispatchRead i c r d version response hc hstage hd hout =>
    have hne : c.request ≠ .connect := fun hconnect => nomatch hout.symm.trans (h.outcome_eq_none hc hstage hd hconnect)
    exact { h with
      running := h.setRunning fun hconnect => absurd hconnect hne
      tasks := forall_mem_append.mpr ⟨h.tasks, forall_mem_singleton.mpr hne⟩ }
  | dispatchWrite i c r d response bundle hc hstage hd hout =>
    have hne : c.request ≠ .connect := fun hconnect => nomatch hout.symm.trans (h.outcome_eq_none hc hstage hd hconnect)
    exact { h with
      running := h.setRunning fun hconnect => absurd hconnect hne
      queue := RaftEventStore.forall_waiting_append h.queue hne }
  | finish i c r d replies hc hstage hreplies =>
    exact { h with running := fun c hc => h.running c (mem_of_mem_eraseIdx hc) }
  | reply i task committed htask hcommitted =>
    exact { h with tasks := fun task htask => h.tasks task (mem_of_mem_eraseIdx htask) }
  | _ => exact { h with }

end Connects

namespace Reported

variable {s t : Node}

theorem raftStep (h : Reported s) {r : Raft} (hr : s.raft.Steps r)
    (hsequenced : Sequenced { s with raft := r }) : Reported { s with raft := r } := by
  have hle : s.newest ≤ Node.newest { s with raft := r } :=
    hr.newest_le h.sequenced.pipeline.terms.storage.committed_le hsequenced.ordered
  exact
    { sequenced := hsequenced
      connects := { h.connects with }
      max_le := h.max_le.trans hle
      toUpdate_le := fun v hv => (h.toUpdate_le v hv).trans hle
      ready_le := fun tk htk v hv => (h.ready_le tk htk v hv).trans hle
      stale_le := fun task htask hstale => (h.stale_le task htask hstale).trans hle
      replies_le := fun reply hreply hconnect => (h.replies_le reply hreply hconnect).trans hle }

theorem pushReply (h : Reported s) {reply : Reply}
    (hreply : reply.request = .connect → reply.response.latestVersion ≤ s.newest) :
    ∀ reply' ∈ s.replies ++ [reply], reply'.request = .connect →
      reply'.response.latestVersion ≤ s.newest :=
  forall_mem_append.mpr ⟨h.replies_le, forall_mem_singleton.mpr hreply⟩

theorem setUpdate (h : Reported s) {i : ℕ} {u : Update} (hu : u.version ≤ s.newest) :
    ∀ u' ∈ s.toUpdate.set i u, u'.version ≤ s.newest := by
  intro u' hu'
  rcases mem_or_eq_of_mem_set hu' with hu' | rfl
  · exact h.toUpdate_le u' hu'
  · exact hu

theorem newest_of_ready (h : Pipeline s) {term maxVersion : ℕ} (hready : s.leaderIsReady term)
    (hversion : s.lastBundleVersion = some maxVersion) : maxVersion ≤ s.newest := by
  have hlog := newestVersion_of_ready hready hversion
  have hcommitted : s.raft.log.length ≤ s.raft.committed := by
    simp only [Node.leaderIsReady, Bool.and_eq_true, decide_eq_true_eq] at hready
    exact hready.1.2.symm.trans_le h.terms.storage.commitIndex_le
  rw [Node.newest, take_of_length_le hcommitted, hlog]

theorem replyVersion_le {i : ℕ} {c : Running} {r : ExecResult} {version : ℕ}
    (hG : RaisesCommitted s (.dispatch i)) (hc : s.running[i]? = some c) (hstage : c.stage = .executing (.ret r))
    (hversion : c.request.replyVersion s.versions r.events = some version)
    (hstale : c.request.command.isFollowerReadCmd) : version ≤ s.newest := by
  rw [Request.replyVersion, if_pos hstale] at hversion
  refine maxFollowerReadVersion_le hversion fun e he => ?_
  have hread := hG c r hc hstage hstale e he
  split_ifs at hread ⊢ with hnotFound
  · rw [VersionStore.getMaxAllocatedVersion, if_neg hread.1]
    exact Nat.sub_le_of_le_add hread.2
  · exact hread

theorem version_le (h : Reported s) {i : ℕ} {task : Task} {committed : Bool}
    (hG : RaisesCommitted s (.replyTask i)) (htask : s.tasks[i]? = some task)
    (hcommitted : s.isCommitted task = some committed) : task.mVersion ≤ s.newest := by
  have hmem := mem_of_getElem? htask
  cases committed with
  | false => exact hG task htask hcommitted
  | true =>
    by_cases hindex : task.mIndex = 0
    · -- a read: it has waited, unless it is a stale one
      by_cases hstale : task.followerReadTask
      · exact h.stale_le task hmem hstale
      · simp only [Node.isCommitted, hindex, ne_eq, not_true_eq_false, if_false] at hcommitted
        split_ifs at hcommitted with hwait
        have hle : task.mVersion ≤ s.versions.getCurMaxVersion := by
          refine Nat.le_of_not_lt fun hlt => hwait ⟨?_, hlt⟩
          simpa using hstale
        exact hle.trans h.max_le
    · obtain ⟨hle, entry, hentry, hterm⟩ :=
        Node.entryAt_of_isCommitted h.sequenced.pipeline.terms.storage hindex hcommitted
      have hbundle := h.sequenced.pipeline.entry_eq hmem hindex hentry hterm
      rw [← (h.sequenced.pipeline.taskLed task hmem hindex).1]
      rw [hbundle] at hentry
      exact (h.sequenced.ordered.take _).le_newestVersion (mem_bundleVersions_take hentry rfl hle)

theorem finish (h : Reported s) {i : ℕ} {c : Running} {r : ExecResult} {d : Dispatched}
    {replies : List Reply} (hreplies : s.lateReply c.request r d.outcome = some replies)
    (hsequenced : Sequenced { s with
      stores := c.request.command.finish s.stores d.events
      running := s.running.eraseIdx i
      replies := s.replies ++ replies })
    (hconnects : Connects { s with
      stores := c.request.command.finish s.stores d.events
      running := s.running.eraseIdx i
      replies := s.replies ++ replies }) :
    Reported { s with
      stores := c.request.command.finish s.stores d.events
      running := s.running.eraseIdx i
      replies := s.replies ++ replies } := by
  refine { h with sequenced := hsequenced, connects := hconnects, replies_le := ?_ }
  cases hout : d.outcome with
  | some out =>
    rw [hout] at hreplies
    cases hreplies
    rw [append_nil]
    exact h.replies_le
  | none =>
    rw [hout] at hreplies
    obtain ⟨response, hresponse, rfl⟩ := map_eq_some_iff.mp hreplies
    refine h.pushReply fun hconnect => ?_
    change c.request = .connect at hconnect
    rw [hconnect] at hresponse
    cases hresponse
    exact h.max_le

theorem step (h : Reported s) {a : Act} (hG : RaisesCommitted s a) (hsequenced : Sequenced t) (ht : Steps s a t) :
    Reported t := by
  have hconnects := h.connects.step ht
  cases ht with
  | raft a r hr => exact h.raftStep hr hsequenced
  | send e hpopped =>
    exact
      { h with
        sequenced := hsequenced
        connects := hconnects
        stale_le := forall_mem_append.mpr ⟨h.stale_le, forall_mem_singleton.mpr nofun⟩ }
  | notLeader i th hth =>
    exact
      { h with
        sequenced := hsequenced
        connects := hconnects
        replies_le := h.pushReply fun _ => Nat.zero_le _ }
  | takeOver | recovered | clear | setTerm =>
    refine { h with sequenced := hsequenced, connects := hconnects, ready_le := fun tk htk v hv => ?_ }
    cases htk
    cases hv
  | stepDown callback tk htk hstage hne | lead callback tk l htk hstage =>
    exact { h with sequenced := hsequenced, connects := hconnects, ready_le := nofun }
  | ready callback tk maxVersion htk hstage hterm hready hversion =>
    refine { h with sequenced := hsequenced, connects := hconnects, ready_le := fun tk htk v hv => ?_ }
    cases htk
    cases hv
    exact newest_of_ready h.sequenced.pipeline hready hversion
  | callbackFails callback tk l v htk hstage =>
    exact
      { h with
        sequenced := hsequenced
        connects := hconnects
        ready_le := nofun
        replies_le := h.pushReply fun _ => Nat.zero_le _ }
  | recover callback tk l v htk hstage =>
    refine
      { h with
        sequenced := hsequenced
        connects := hconnects
        max_le := h.ready_le tk htk v (by rw [hstage]; rfl)
        ready_le := fun tk htk v hv => ?_ }
    cases htk
    cases hv
  | call i c o next hc hstage => cases o <;> exact { h with sequenced := hsequenced, connects := hconnects }
  | dispatchRead i c r d version response hc hstage hd hout hversion =>
    exact
      { h with
        sequenced := hsequenced
        connects := hconnects
        stale_le := forall_mem_append.mpr
          ⟨h.stale_le, forall_mem_singleton.mpr (replyVersion_le (s := s) hG hc hstage hversion)⟩ }
  | finish i c r d replies hc hstage hreplies => exact h.finish hreplies hsequenced hconnects
  | reply i task committed htask hcommitted =>
    exact
      { h with
        sequenced := hsequenced
        connects := hconnects
        toUpdate_le := forall_mem_append.mpr
          ⟨h.toUpdate_le, forall_mem_singleton.mpr (h.version_le hG htask hcommitted)⟩
        stale_le := fun task htask => h.stale_le task (mem_of_mem_eraseIdx htask)
        replies_le := h.pushReply fun hconnect =>
          absurd hconnect (h.connects.tasks task (mem_of_getElem? htask)) }
  | skip i v hupdate =>
    exact
      { h with
        sequenced := hsequenced
        connects := hconnects
        toUpdate_le := fun u hu => h.toUpdate_le u (mem_of_mem_eraseIdx hu) }
  | look i v hupdate =>
    exact
      { h with
        sequenced := hsequenced
        connects := hconnects
        toUpdate_le := h.setUpdate (h.toUpdate_le (.enters v) (mem_of_getElem? hupdate)) }
  | loadMax i v hupdate =>
    exact
      { h with
        sequenced := hsequenced
        connects := hconnects
        toUpdate_le := h.setUpdate
          (Nat.max_le.mpr ⟨h.toUpdate_le (.waits v) (mem_of_getElem? hupdate), h.max_le⟩) }
  | storeMax i v m hupdate =>
    exact
      { h with
        sequenced := hsequenced
        connects := hconnects
        max_le := h.toUpdate_le _ (mem_of_getElem? hupdate)
        toUpdate_le := fun u hu => h.toUpdate_le u (mem_of_mem_eraseIdx hu) }
  | _ => exact { h with sequenced := hsequenced, connects := hconnects }

/-- The log of a follower is in order if all that it receives is. -/
theorem ordered_follower (h : Ordered s.raft.log) {a : Act}
    (hreceive : ∀ log, a = .raft (.receive log) → Ordered log) (ht : Engine.step s a = some t)
    (hrole : t.raft.role = .Follower) : Ordered t.raft.log := by
  cases a with
  | raft a =>
    obtain ⟨r, hr, rfl⟩ := map_eq_some_iff.mp ht
    rcases Raft.log_of_follower hr hrole with hlog | hlog
    · exact hlog ▸ h
    · exact hreceive r.log (congrArg Act.raft hlog)
  | _ => cases steps_of_step ht <;> exact h

end Reported

/-- In every run in which the version stays with the log, it is at most the newest committed one, and no `Connect` has
been told more than is committed. -/
theorem reported_le_newest {raft : Raft} {db : RocksDBKVStore} (hrec : Recoverable raft db) (hord : Ordered raft.log)
    (now : ℕ) {acts : List Act} (hG : Meets step StaysWithLog (recoverSelf raft db now) acts) {t : Node}
    (ht : exec step (recoverSelf raft db now) acts = some t) :
    t.versions.mMaxVersion ≤ t.newest ∧
      ∀ reply ∈ t.replies, reply.request = .connect → reply.response.latestVersion ≤ t.newest := by
  have hinit : Reported (recoverSelf raft db now) :=
    { sequenced := hrec.sequenced hord now
      connects := ⟨forall_mem_nil _, forall_mem_nil _, forall_mem_nil _⟩
      max_le := Nat.zero_le _
      toUpdate_le := fun _ hv => nomatch hv
      ready_le := nofun
      stale_le := fun _ ht => nomatch ht
      replies_le := fun _ hr => nomatch hr }
  have hinv : Reported t := by
    refine exec_invariant (fun s a u hs hg hu => ?_) hinit hG ht
    obtain ⟨hquiet, hraises, hreceive⟩ := hg
    exact hs.step hraises (hs.sequenced.step hquiet (Reported.ordered_follower hs.sequenced.ordered hreceive hu)
      (steps_of_step hu))
      (steps_of_step hu)
  exact ⟨hinv.max_le, hinv.replies_le⟩

theorem staysWithLog_firstPut : Meets step StaysWithLog (recoverSelf {} {} 0)
    (firstPut ++ persistPut ++ List.replicate 3 (.updateCurMaxVersion 0)) := by
  iterate 10 refine meets_cons rfl ⟨trivial, trivial, nofun⟩ ?_
  refine meets_cons rfl ⟨⟨le_rfl, by decide⟩, trivial, nofun⟩ ?_
  iterate 6 refine meets_cons rfl ⟨trivial, trivial, nofun⟩ ?_
  refine meets_cons rfl ⟨fun _ _ => .inr (by decide), fun c r hc _ hstale => (by cases hc; cases hstale), nofun⟩ ?_
  iterate 7 refine meets_cons rfl ⟨trivial, trivial, nofun⟩ ?_
  refine meets_cons rfl ⟨trivial, fun task htask hfalse => (by cases htask; cases hfalse), nofun⟩ ?_
  iterate 3 refine meets_cons rfl ⟨trivial, trivial, nofun⟩ ?_
  trivial

theorem firstPut_reported : ∃ t,
    exec step (recoverSelf {} {} 0) (firstPut ++ persistPut ++ List.replicate 3 (.updateCurMaxVersion 0)) = some t ∧
      t.versions.mMaxVersion = 1 ∧ t.versions.mMaxVersion ≤ t.newest := by
  obtain ⟨t, ht, hmax⟩ : ∃ t,
      exec step (recoverSelf {} {} 0) (firstPut ++ persistPut ++ List.replicate 3 (.updateCurMaxVersion 0)) = some t ∧
        t.versions.mMaxVersion = 1 := ⟨_, rfl, rfl⟩
  exact ⟨t, ht, hmax, (reported_le_newest recoverable_empty (by decide) 0 staysWithLog_firstPut ht).1⟩

/-- A stale read of a missing key, on a node that has never led. -/
def staleMiss : List Act :=
  [.submit (.get { entry := ⟨"k"⟩, allowStale := true }), .advance 0, .advance 0, .start 0 .ok, .call 0,
    .dispatch 0, .finish 0, .replyTask 0, .updateCurMaxVersion 0, .updateCurMaxVersion 0, .updateCurMaxVersion 0]

/-- The version before the first one wraps, and is taken for committed. -/
theorem staleMiss_wraps : Recoverable {} {} ∧
    ∃ t, exec step (recoverSelf {} {} 0) staleMiss = some t ∧
      t.versions.mMaxVersion = 2 ^ 64 - 1 ∧ t.newest = 0 :=
  ⟨recoverable_empty, _, rfl, rfl, rfl⟩

end Goblin.Engine
