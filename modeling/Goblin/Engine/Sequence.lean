import Goblin.Engine.Pipeline

/-! Versions along the way of the bundles. They follow the order of the log as long as every new leader takes its
next version from the newest bundle, which the two unguarded stores of `recoverMaxVersion` do not ensure. -/
namespace Goblin.Engine

open Model Store Execution List Option

/-- The versions of all bundles on their way that belong to the term of the processor. -/
def Node.ownVersions (s : Node) : List ℕ :=
  (s.upcoming.filter (·.1 = s.mCurTerm)).map Prod.snd

/-- What a new leader has made of the newest version in its log. -/
def TakeoverStage.Covers (v : VersionStore) (newest : ℕ) : TakeoverStage → Prop
  | .ready _ maxVersion => newest ≤ maxVersion
  | .recovering _ maxVersion => newest ≤ maxVersion
  | .recovered _ => newest < v.mNextVersion
  | .cleared _ => newest < v.mNextVersion
  | _ => True

theorem TakeoverStage.Covers.congr {v v' : VersionStore} {newest : ℕ} {stage : TakeoverStage}
    (h : stage.Covers v newest) (hnext : v'.mNextVersion = v.mNextVersion) : stage.Covers v' newest := by
  cases stage with
  | recovered | cleared => exact lt_of_lt_of_eq h hnext.symm
  | _ => exact h

/-- The second store of `recoverMaxVersion` does not load less than the first one has stored, and neither it nor a
command reaches the last version that there is. -/
def Quiet (s : Node) : Act → Prop
  | .becomeLeader _ =>
    match s.takeover with
    | some ⟨_, _, .recovering _ maxVersion⟩ =>
      maxVersion ≤ s.versions.mMaxVersion ∧ s.versions.mMaxVersion + 1 < 2 ^ 64
    | _ => True
  | .dispatch i =>
    match s.running[i]? with
    | some ⟨request, .executing (.ret r)⟩ => ∀ d ∈ request.dispatch s.versions r,
      d.versions = s.versions ∨ s.versions.mNextVersion + 1 < 2 ^ 64
    | _ => True
  | _ => True

instance (s : Node) (a : Act) : Decidable (Quiet s a) := by
  unfold Quiet
  split
  · split <;> infer_instance
  · split <;> infer_instance
  · infer_instance

theorem Quiet.recovers {s : Node} {callback : Status} (h : Quiet s (.becomeLeader callback)) {tk : Takeover} {l v : ℕ}
    (htk : s.takeover = some tk) (hstage : tk.stage = .recovering l v) :
    v ≤ s.versions.mMaxVersion ∧ s.versions.mMaxVersion + 1 < 2 ^ 64 := by
  obtain ⟨request, curTerm, stage⟩ := tk
  cases hstage
  simpa only [Quiet, htk] using h

theorem Quiet.dispatch {s : Node} {i : ℕ} (h : Quiet s (.dispatch i)) {c : Running} {r : ExecResult} {d : Dispatched}
    (hc : s.running[i]? = some c) (hstage : c.stage = .executing (.ret r))
    (hd : c.request.dispatch s.versions r = some d) :
    d.versions = s.versions ∨ s.versions.mNextVersion + 1 < 2 ^ 64 := by
  obtain ⟨request, stage⟩ := c
  cases hstage
  simp only [Quiet, hc] at h
  exact h d hd

structure Sequenced (s : Node) : Prop where
  pipeline : Pipeline s
  ordered : Ordered s.raft.log
  /-- While Raft is in the term of the processor, what is on its way continues the log. -/
  versions : (s.raft.led s.mCurTerm).isSome → s.raft.currentTerm = s.mCurTerm →
    (newestVersion s.raft.log :: (s.ownVersions ++ [s.versions.mNextVersion])).Pairwise (· < ·)
  recovers : ∀ tk, s.takeover = some tk → s.raft.currentTerm = tk.curTerm →
    tk.stage.Covers s.versions (newestVersion s.raft.log)

theorem VersionStore.successor_of_lt {version : ℕ} (h : version + 1 < 2 ^ 64) :
    VersionStore.successor version = version + 1 := Nat.mod_eq_of_lt h

theorem newestVersion_of_ready {s : Node} {term maxVersion : ℕ} (hready : s.leaderIsReady term)
    (hversion : s.lastBundleVersion = some maxVersion) : newestVersion s.raft.log = maxVersion := by
  simp only [Node.leaderIsReady, Bool.and_eq_true] at hready
  have hnil := bundlesBetween_of_noops hready.2
  have hle : s.store.mAppliedIndex ≤ s.raft.log.length := by
    have := hready.2
    simp only [Raft.onlyNoopsAfter, Bool.and_eq_true, decide_eq_true_eq] at this
    exact this.1.1.le
  have hsame := newestVersion_of_between hnil hle
  rw [take_length] at hsame
  rw [hsame]
  unfold Node.lastBundleVersion at hversion
  split_ifs at hversion with h0
  · cases hversion
    rw [h0]
    rfl
  · obtain ⟨bundle, hbundle, rfl⟩ := map_eq_some_iff.mp hversion
    obtain ⟨⟨term, b⟩, hentry, hb⟩ := bind_eq_some_iff.mp hbundle
    obtain ⟨n, hn⟩ : ∃ n, s.store.mAppliedIndex = n + 1 := ⟨s.store.mAppliedIndex - 1, by omega⟩
    rw [hn] at hentry ⊢
    change s.raft.log[n]? = some ⟨term, b⟩ at hentry
    cases hb
    rw [take_add_one, hentry]
    exact newestVersion_bundle _ _ _

theorem Terms.currentTerm_ne {s : Node} (h : Terms s) {tk : Takeover} (htk : s.takeover = some tk)
    (hlt : s.mCurTerm < tk.curTerm) : s.raft.currentTerm ≠ s.mCurTerm := by
  obtain ⟨own, hown⟩ := isSome_iff_exists.mp (h.takeover tk htk).led
  have := h.raft.led_le _ own hown
  omega

namespace Sequenced

variable {s t : Node} {tk : Takeover}

theorem ownVersions_accept {req : ClientRequest} {rest : List ClientRequest} (hreq : s.raft.requests = req :: rest)
    (hterm : req.entry.term = s.mCurTerm) (r : Raft) (hr : r.requests = rest) :
    s.ownVersions = req.entry.version :: Node.ownVersions { s with raft := r } := by
  simp [Node.ownVersions, Node.upcoming, hreq, hr, hterm]

theorem newestVersion_accept (h : Sequenced s) {req : ClientRequest} {rest : List ClientRequest}
    (hreq : s.raft.requests = req :: rest) :
    newestVersion (s.raft.log ++ [req.entry]) = req.entry.version := by
  obtain ⟨bundle, hbundle⟩ := isSome_iff_exists.mp
    (h.pipeline.bundles req (by simp [Node.sent, hreq]))
  obtain ⟨index, term, b⟩ := req
  cases hbundle
  exact newestVersion_bundle _ _ _

theorem versions_raftStep (h : Sequenced s) {r : Raft} (hr : s.raft.Steps r) (hled : (r.led s.mCurTerm).isSome)
    (hcur : r.currentTerm = s.mCurTerm) :
    (newestVersion r.log :: (Node.ownVersions { s with raft := r } ++ [s.versions.mNextVersion])).Pairwise
      (· < ·) := by
  rcases h.pipeline.terms.log_cases hr hled hcur with ⟨hlog, hsub, hled', hcur'⟩ |
      ⟨req, rest, hreq, hindex, hterm, hled', hcur', rfl⟩
  · have hupcoming : (Node.upcoming { s with raft := r }).Sublist s.upcoming :=
      ((hsub.append_right _).map _).append_right _
    rw [hlog]
    exact (h.versions hled' hcur').sublist ((((hupcoming.filter _).map _).append_right _).cons_cons _)
  · have hin := h.versions hled' hcur'
    rw [ownVersions_accept hreq hterm (Raft.append { s.raft with requests := rest } req.entry) rfl] at hin
    exact h.newestVersion_accept hreq ▸ (pairwise_cons.mp hin).2

theorem ordered_raftStep (h : Sequenced s) {r : Raft} (hr : s.raft.Steps r)
    (hord : r.role = .Follower → Ordered r.log) : Ordered r.log := by
  have hterms := h.pipeline.terms
  cases hr with
  | elect term helect => exact h.ordered.noop fun entry he => (hterms.raft.term_le entry he).trans helect.le
  | receive log hrole hlog => exact hord hrole
  | accept req rest hreq hrole hterm hindex =>
    have hcur : s.raft.currentTerm = s.mCurTerm := by
      refine le_antisymm ?_ hterms.curTerm_le
      rw [← hterm]
      refine hterms.inFlight_le _ (mem_append_left _ ?_)
      exact mem_map.mpr ⟨(req.entry.term, req.entry.version), by simp [Node.upcoming, hreq], rfl⟩
    have hin := h.versions (by rw [← hcur, hterms.raft.led_current, if_pos hrole]; rfl) hcur
    rw [ownVersions_accept hreq (hterm.trans hcur) { s.raft with requests := rest } rfl] at hin
    have hlt := (pairwise_cons.mp hin).1 _ mem_cons_self
    have hle : ∀ entry ∈ s.raft.log, entry.term ≤ req.entry.term :=
      fun entry he => hterm ▸ hterms.raft.term_le entry he
    obtain ⟨bundle, hbundle⟩ := isSome_iff_exists.mp
      (h.pipeline.bundles req (by simp [Node.sent, hreq]))
    obtain ⟨index, term, b⟩ := req
    cases hbundle
    exact h.ordered.bundle hle hlt
  | _ => exact h.ordered

theorem raftStep (h : Sequenced s) {r : Raft} (hr : s.raft.Steps r) (hord : r.role = .Follower → Ordered r.log) :
    Sequenced { s with raft := r } where
  pipeline := h.pipeline.raftStep hr
  ordered := h.ordered_raftStep hr hord
  versions := h.versions_raftStep hr
  recovers := by
    intro tk htk hcur
    by_cases hw : tk.stage = .waiting
    · rw [hw]
      trivial
    · obtain ⟨hcur', hlog⟩ := h.pipeline.terms.log_eq_of_takeover hr htk hw hcur
      exact hlog ▸ h.recovers tk htk hcur'

/-- A step that leaves what is on its way and the next version alone. -/
theorem move (h : Sequenced s) (hpipeline : Pipeline t) (hupcoming : t.upcoming = s.upcoming)
    (hraft : ∃ requests, t.raft = { s.raft with requests := requests }) (hterm : t.mCurTerm = s.mCurTerm)
    (hnext : t.versions.mNextVersion = s.versions.mNextVersion)
    (hrecovers : ∀ tk, t.takeover = some tk → s.raft.currentTerm = tk.curTerm →
      tk.stage.Covers t.versions (newestVersion s.raft.log)) : Sequenced t := by
  obtain ⟨requests, hraft⟩ := hraft
  have hown : t.ownVersions = s.ownVersions := by rw [Node.ownVersions, hupcoming, hterm, Node.ownVersions]
  exact
    { pipeline := hpipeline
      ordered := by rw [hraft]; exact h.ordered
      versions := by rw [hraft, hterm, hown, hnext]; exact h.versions
      recovers := by rw [hraft]; exact hrecovers }

theorem setTerm (h : Sequenced s) (callback : Status) {l : ℕ} (htk : s.takeover = some tk)
    (hstage : tk.stage = .cleared l) : Sequenced { s with
      mCurTerm := tk.curTerm
      takeover := some { tk with stage := .termSet l } } := by
  obtain ⟨hup, -, -, -⟩ := Pipeline.lt_of_takeover h.pipeline.terms htk (by rw [hstage]; exact nofun)
  have hversions : s.upcoming.filter (·.1 = tk.curTerm) = [] :=
    filter_eq_nil_iff.mpr fun pair hp => by simpa using (hup pair hp).ne
  refine
    { h with
      pipeline := h.pipeline.setTerm callback htk hstage
      versions := fun _ hcur => ?_
      recovers := fun tk' htk' _ => by cases htk'; trivial }
  have hlt := h.recovers tk htk hcur
  rw [hstage] at hlt
  change (_ :: ((s.upcoming.filter (·.1 = tk.curTerm)).map Prod.snd ++ [s.versions.mNextVersion])).Pairwise _
  rw [hversions]
  exact pairwise_pair.mpr hlt

/-- The version that a command takes follows those on their way. -/
theorem versions_dispatch {newest next : ℕ} {own : List ℕ} (h : (newest :: (own ++ [next])).Pairwise (· < ·)) :
    (newest :: (own ++ [next] ++ [next + 1])).Pairwise (· < ·) := by
  rw [← cons_append]
  refine pairwise_append.mpr ⟨h, pairwise_singleton _ _, fun v hv w hw => ?_⟩
  rw [mem_singleton.mp hw]
  rw [← cons_append] at hv h
  rcases mem_append.mp hv with hv | hv
  · exact ((pairwise_append.mp h).2.2 v hv _ (mem_singleton_self _)).trans (Nat.lt_succ_self _)
  · rw [mem_singleton.mp hv]
    exact Nat.lt_succ_self _

theorem step (h : Sequenced s) {a : Act} (hquiet : Quiet s a)
    (hord : t.raft.role = .Follower → Ordered t.raft.log) (ht : Steps s a t) : Sequenced t := by
  have hpipeline := h.pipeline.step ht
  have hne {tk : Takeover} (htk : s.takeover = some tk) (hlt : s.mCurTerm < tk.curTerm) :=
    h.pipeline.terms.currentTerm_ne htk hlt
  cases ht with
  | raft a r hr => exact h.raftStep hr hord
  | dequeue e rest hqueue hidle =>
    refine h.move hpipeline ?_ ⟨_, rfl⟩ rfl rfl h.recovers
    simp only [Node.upcoming, RaftEventStore.waiting_dequeue hqueue hidle]
  | send e hpopped =>
    refine h.move hpipeline ?_ ⟨_, rfl⟩ rfl rfl h.recovers
    simp [Node.upcoming, Node.sendNext, RaftEventStore.waiting, RaftEventStore.popped, hpopped, LogEntry.version]
  | compareExchange previousLogIndex hprevious =>
    refine h.move hpipeline ?_ ⟨_, rfl⟩ rfl rfl h.recovers
    simp only [Node.upcoming, RaftEventStore.waiting_of_sent hprevious]
    rfl
  | sendBatch =>
    refine h.move hpipeline ?_ ⟨_, rfl⟩ rfl rfl h.recovers
    simp [Node.upcoming, Node.sendBatch, Raft.enqueueClientRequests, RaftEventStore.waiting, RaftEventStore.popped]
  | takeOver i th curTerm hth hgate hfree hne hidle =>
    exact { h with pipeline := hpipeline, recovers := fun tk htk _ => by cases htk; trivial }
  | stepDown | callbackFails | lead => exact { h with pipeline := hpipeline, recovers := (by rintro _ ⟨⟩) }
  | ready callback tk v htk hstage hterm hready hversion =>
    refine { h with pipeline := hpipeline, recovers := fun tk' htk' _ => ?_ }
    cases htk'
    exact (newestVersion_of_ready hready hversion).le
  | recover callback tk l v htk hstage =>
    refine { h with pipeline := hpipeline, recovers := fun tk' htk' hcur => ?_ }
    have hcovers := h.recovers tk htk
    rw [hstage] at hcovers
    cases htk'
    exact hcovers hcur
  | recovered callback tk l v htk hstage =>
    obtain ⟨hle, hlt⟩ := hquiet.recovers htk hstage
    have hcompares := (h.pipeline.terms.takeover tk htk).compares
    rw [hstage] at hcompares
    refine
      { h with
        pipeline := hpipeline
        versions := fun _ hcur => absurd hcur (hne htk hcompares)
        recovers := fun tk' htk' hcur => ?_ }
    have hcovers := h.recovers tk htk
    rw [hstage] at hcovers
    cases htk'
    change _ < VersionStore.successor s.versions.mMaxVersion
    rw [VersionStore.successor_of_lt hlt]
    exact Nat.lt_succ_of_le ((hcovers hcur).trans hle)
  | clear callback tk l htk hstage =>
    refine { h with pipeline := hpipeline, recovers := fun tk' htk' hcur => ?_ }
    have hcovers := h.recovers tk htk
    rw [hstage] at hcovers
    cases htk'
    exact hcovers hcur
  | setTerm callback tk l htk hstage => exact h.setTerm callback htk hstage
  | call i c o next hc hstage => cases o <;> exact { h with pipeline := hpipeline }
  | dispatchWrite i c r d response bundle hc hstage hd hout hv hcmd hnil hall =>
    have hsucc : VersionStore.successor s.versions.mNextVersion = s.versions.mNextVersion + 1 := by
      refine VersionStore.successor_of_lt ((hquiet.dispatch hc hstage hd).resolve_left fun hsame => ?_)
      have := congrArg VersionStore.mNextVersion (hv.symm.trans hsame)
      simp only [VersionStore.successor] at this
      omega
    refine
      { h with
        pipeline := hpipeline
        versions := fun _ hcur => ?_
        recovers := fun tk htk => by cases (h.pipeline.terms.takeover_eq_none hc).symm.trans htk }
    have hin := h.versions (h.pipeline.terms.runs c (mem_of_getElem? hc) hcmd) hcur
    simp only [Node.ownVersions, Node.upcoming, RaftEventStore.waiting_append, map_append, map_cons,
      map_nil, filter_append, Pipeline.getVersionFromBundle_eq hnil hall, hsucc] at hin ⊢
    simpa [append_assoc] using versions_dispatch hin
  | storeMax i v m hupdate =>
    exact h.move hpipeline rfl ⟨_, rfl⟩ rfl rfl fun tk htk hcur => (h.recovers tk htk hcur).congr rfl
  | _ => exact { h with pipeline := hpipeline }

end Sequenced

theorem Recoverable.sequenced {raft : Raft} {db : RocksDBKVStore} (h : Recoverable raft db) (hord : Ordered raft.log)
    (now : ℕ) : Sequenced (recoverSelf raft db now) where
  pipeline := h.pipeline now
  ordered := hord
  versions hled := by simp [recoverSelf, h.led] at hled
  recovers := nofun

end Goblin.Engine
