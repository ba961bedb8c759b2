import Goblin.Engine.Terms

/-! Becoming leader: what the store of the processor shows when the first command of a term runs. -/
namespace Goblin.Engine

open Model Store Lib List

/-- A node when the apply loop has run `recoverSelf`. -/
def recoverSelf (raft : Raft) (db : RocksDBKVStore) (now : ℕ) : Node where
  raft := raft
  store := { mAppliedIndex := db.mMilestone, mLoadedIndex := db.mMilestone }
  loop := { appliedIndex := db.mMilestone, mLastMilestone := db.mMilestone }
  stores := { db := db, now := now }

/-- What an earlier run, or none, may have left on disk: a log whose terms do not decrease, and the records of a
committed part of it. -/
structure Recoverable (raft : Raft) (db : RocksDBKVStore) : Prop where
  role : raft.role = .Follower
  led : ∀ term, raft.led term = none
  requests : raft.requests = []
  commitIndex_le : raft.commitIndex ≤ raft.committed
  committed_le : raft.committed ≤ raft.log.length
  term_le : ∀ entry ∈ raft.log, entry.term ≤ raft.currentTerm
  sorted : raft.log.Pairwise (fun e f => e.term ≤ f.term)
  noError : ∀ key, db.mGetError key = none
  clear : db.mWriteBatch = []
  milestone_le : db.mMilestone ≤ raft.committed
  records : db.mRocksDB = recordsAt raft.log db.mMilestone

theorem recoverable_empty : Recoverable {} {} where
  role := rfl
  led := fun _ => rfl
  requests := rfl
  commitIndex_le := le_rfl
  committed_le := le_rfl
  term_le := by decide
  sorted := by decide
  noError := fun _ => rfl
  clear := rfl
  milestone_le := le_rfl
  records := rfl

theorem Recoverable.terms {raft : Raft} {db : RocksDBKVStore} (h : Recoverable raft db) (now : ℕ) :
    Terms (recoverSelf raft db now) where
  storage :=
    { noError := h.noError
      committed_le := h.committed_le
      commitIndex_le := h.commitIndex_le
      loaded_le := h.milestone_le
      applied_le := le_rfl
      milestone_le := le_rfl
      mAppliedIndex_eq := rfl
      pending := (bundlesBetween_self _ _).symm
      flushed := h.records
      batched := by
        change applyBatch db.mRocksDB db.mWriteBatch = _
        rw [h.clear]
        exact h.records }
  raft :=
    { led_le := fun term own hown => nomatch (h.led term).symm.trans hown
      led_zero := h.led 0
      led_current := by
        change raft.led raft.currentTerm = if raft.role = .Leader then some raft.log else none
        rw [h.led, h.role]
        rfl
      term_le := h.term_le
      sorted := h.sorted
      agrees := fun n hn entry he own hown => nomatch (h.led entry.term).symm.trans hown }
  cached := nofun
  gates := fun _ hth => nomatch hth
  curTerm_le := Nat.zero_le _
  started := .inl rfl
  passes := fun _ hth => nomatch hth
  runs := fun _ hc => nomatch hc
  inFlight_le := by
    intro term hterm
    simp [Node.inFlight, Node.upcoming, RaftEventStore.waiting, RaftEventStore.popped, recoverSelf, h.requests] at hterm
  takeover := nofun

/-- Every read through the store of the processor is answered as by a RocksDB with the records. -/
def Node.Shows (s : Node) (records : RecordMap) : Prop :=
  ∀ key out, (s.stores.mem.readKV s.stores.db s.stores.now key out).1 =
    RocksDBKVStore.readKV { mRocksDB := records } s.stores.now key out

theorem Node.shows_of_empty {s : Node} (hmem : s.stores.mem = {})
    (herror : ∀ key, s.stores.db.mGetError key = none) : s.Shows s.stores.db.mRocksDB := by
  intro key out
  rw [hmem]
  change s.stores.db.readKV s.stores.now key out = _
  simp only [RocksDBKVStore.readKV, herror]

/-- When the term is set, reads show the log up to the last index of the leader, and what later
leaders may have added and this node flushed meanwhile. Until the term ends nothing is added. -/
def LeadsFresh (s : Node) : Prop :=
  ∀ tk lastLogIndex, s.takeover = some tk → tk.stage = .termSet lastLogIndex →
    s.Shows (recordsAt s.raft.log (max lastLogIndex s.loop.mLastMilestone)) ∧
      (s.raft.currentTerm = tk.curTerm → s.raft.log.length = lastLogIndex)

/-- Whenever the leader is found ready, the apply loop has committed a milestone at the last bundle
that was handed out to it. -/
def Settled (s : Node) : Act → Prop
  | .becomeLeader _ => ∀ tk ∈ s.takeover, tk.stage = .waiting → s.raft.currentTerm = tk.curTerm →
      s.leaderIsReady tk.curTerm → s.loop.mLastMilestone = s.store.mAppliedIndex
  | _ => True

theorem bundlesBetween_of_noops {r : Raft} {appliedIndex expectedTerm : ℕ}
    (h : r.onlyNoopsAfter appliedIndex expectedTerm) :
    bundlesBetween r.log appliedIndex r.log.length = [] := by
  refine eq_nil_iff_forall_not_mem.mpr fun b hb => ?_
  obtain ⟨hlt, hle, hb⟩ := mem_bundlesBetween.mp hb
  obtain ⟨bundle, hbundle, -⟩ := Option.map_eq_some_iff.mp hb
  obtain ⟨entry, hentry, hsome⟩ := Option.bind_eq_some_iff.mp hbundle
  obtain ⟨n, hn⟩ : ∃ n, b.2 = n + 1 := ⟨b.2 - 1, by omega⟩
  rw [hn, entryAt_succ] at hentry
  simp only [Raft.onlyNoopsAfter, Bool.and_eq_true] at h
  have hdrop : entry ∈ r.log.drop appliedIndex := by
    refine mem_of_getElem? (i := n - appliedIndex) ?_
    rw [getElem?_drop, show appliedIndex + (n - appliedIndex) = n by omega]
    exact hentry
  have hnoop := all_eq_true.mp h.1.2 entry hdrop
  rw [hsome] at hnoop
  cases hnoop

/-- While a thread takes over, RocksDB has all bundles up to the last index of the leader, and once
the memory is cleared it stays so. -/
structure FreshTakeover (storage : Storage) (mem : InMemoryKVStore) (tk : Takeover) : Prop where
  flushed : ∀ lastLogIndex ∈ tk.stage.lastLogIndex,
    bundlesBetween storage.log storage.loop.mLastMilestone lastLogIndex = []
  cleared : ∀ lastLogIndex, tk.stage = .cleared lastLogIndex ∨ tk.stage = .termSet lastLogIndex →
    mem = {}

theorem StorageStep.bundlesBetween_nil {s t : Storage} (h : StorageStep s t) (hs : s.Inv) {n : ℕ}
    (hn : n ≤ s.committed) (hnil : bundlesBetween s.log s.loop.mLastMilestone n = []) :
    bundlesBetween t.log t.loop.mLastMilestone n = [] := by
  have hlog {log : List LogEntry} (hkeep : log.take s.committed = s.log.take s.committed) :
      bundlesBetween log s.loop.mLastMilestone n = [] := by
    refine (bundlesBetween_congr ?_).trans hnil
    have := congrArg (List.take n) hkeep
    rwa [take_take, take_take, Nat.min_eq_left hn] at this
  cases h with
  | append entry => exact hlog (take_append_of_le_length hs.committed_le)
  | receive log hlen hkeep => exact hlog hkeep
  | flush hidle =>
    refine eq_nil_iff_forall_not_mem.mpr fun b hb => ?_
    obtain ⟨hlt, hle, hb⟩ := mem_bundlesBetween.mp hb
    have hmem := mem_bundlesBetween.mpr ⟨hs.milestone_le.trans_lt hlt, hle, hb⟩
    rw [hnil] at hmem
    cases hmem
  | _ => exact hnil

structure FreshInv (s : Node) : Prop where
  terms : Terms s
  takeover : ∀ tk, s.takeover = some tk → FreshTakeover s.storage s.stores.mem tk

namespace FreshInv

variable {s t : Node}

theorem of_same (h : FreshInv s) {a : Act} (ht : Steps s a t) (htakeover : t.takeover = s.takeover)
    (hmem : t.stores.mem = s.stores.mem) : FreshInv t where
  terms := h.terms.step ht
  takeover := by
    intro tk htk
    rw [htakeover] at htk
    have hfresh := h.takeover tk htk
    refine ⟨fun l hl => ?_, fun l hl => hmem.trans (hfresh.cleared l hl)⟩
    exact ht.storage.bundlesBetween_nil h.terms.storage ((h.terms.takeover tk htk).last l hl).1
      (hfresh.flushed l hl)

theorem of_free (h : FreshInv s) {a : Act} (ht : Steps s a t) (hfree : t.takeover = none) :
    FreshInv t where
  terms := h.terms.step ht
  takeover := fun _ htk => nomatch hfree.symm.trans htk

theorem of_stage (h : FreshInv s) {a : Act} (ht : Steps s a t) {tk : Takeover} {stage : TakeoverStage}
    (htk : s.takeover = some tk) (htakeover : t.takeover = some { tk with stage := stage })
    (hlast : stage.lastLogIndex = tk.stage.lastLogIndex)
    (hmem : ∀ l, stage = .cleared l ∨ stage = .termSet l → t.stores.mem = {}) : FreshInv t where
  terms := h.terms.step ht
  takeover := by
    intro tk' htk'
    cases htakeover.symm.trans htk'
    refine ⟨fun l hl => ?_, hmem⟩
    replace hl := hlast ▸ hl
    exact ht.storage.bundlesBetween_nil h.terms.storage ((h.terms.takeover tk htk).last l hl).1
      ((h.takeover tk htk).flushed l hl)

theorem ready (h : FreshInv s) {callback : Status} {tk : Takeover} {maxVersion : ℕ}
    (htk : s.takeover = some tk) (hstage : tk.stage = .waiting)
    (hterm : s.raft.currentTerm = tk.curTerm) (hready : s.leaderIsReady tk.curTerm)
    (hG : Settled s (.becomeLeader callback)) :
    FreshInv { s with takeover := some { tk with
      stage := .ready s.raft.getLastLogIndex maxVersion } } where
  terms := h.terms.ready htk hstage hterm hready
  takeover := by
    intro tk' htk'
    cases htk'
    refine ⟨fun l hl => ?_, fun l hl => by simp at hl⟩
    cases hl
    change bundlesBetween s.raft.log s.loop.mLastMilestone s.raft.log.length = []
    rw [hG tk htk hstage hterm hready]
    simp only [Node.leaderIsReady, Bool.and_eq_true] at hready
    exact bundlesBetween_of_noops hready.2

theorem step (h : FreshInv s) {a : Act} (hG : Settled s a) (ht : Steps s a t) : FreshInv t := by
  have hst := ht
  cases ht with
  | takeOver i th curTerm hth hgate hfree hne hidle =>
    refine ⟨h.terms.step hst, fun tk htk => ?_⟩
    cases htk
    exact ⟨nofun, fun l hl => by simp at hl⟩
  | stepDown callback tk htk hstage hne | callbackFails callback tk l v htk hstage => exact h.of_free hst rfl
  | ready callback tk v htk hstage hterm hready hversion => exact h.ready htk hstage hterm hready hG
  | recover callback tk l v htk hstage | recovered callback tk l v htk hstage =>
    exact h.of_stage hst htk rfl (by rw [hstage]; rfl) fun l hl => by simp at hl
  | clear callback tk l htk hstage => exact h.of_stage hst htk rfl (by rw [hstage]; rfl) fun _ _ => rfl
  | setTerm callback tk l htk hstage =>
    exact h.of_stage hst htk rfl (by rw [hstage]; rfl) fun _ _ =>
      (h.takeover tk htk).cleared l (.inl hstage)
  | lead callback tk l htk hstage => exact h.of_free hst rfl
  | call i c o next hc hstage => exact h.of_free hst (h.terms.takeover_eq_none hc)
  | refuse i c r d hc | dispatchRead i c r d version response hc | dispatchWrite i c r d response bundle hc =>
    exact h.of_free hst (h.terms.takeover_eq_none hc)
  | finish i c r d replies hc hstage hreplies => exact h.of_free hst (h.terms.takeover_eq_none hc)
  | _ => exact h.of_same hst rfl rfl

theorem leadsFresh (h : FreshInv s) : LeadsFresh s := by
  intro tk l htk hstage
  have hl : l ∈ tk.stage.lastLogIndex := by
    rw [hstage]
    rfl
  have hfresh := h.takeover tk htk
  refine ⟨?_, (h.terms.takeover tk htk).log_length h.terms.raft hl⟩
  have hrecords : s.stores.db.mRocksDB = recordsAt s.raft.log (max l s.loop.mLastMilestone) := by
    rw [recordsAt_of_between (le_max_right l s.loop.mLastMilestone)]
    have hnil : bundlesBetween s.raft.log s.loop.mLastMilestone (max l s.loop.mLastMilestone) = [] := by
      rcases le_total l s.loop.mLastMilestone with hle | hle
      · rw [max_eq_right hle, bundlesBetween_self]
      · rw [max_eq_left hle]
        exact hfresh.flushed l hl
    rw [hnil]
    exact h.terms.storage.flushed
  rw [← hrecords]
  exact Node.shows_of_empty (hfresh.cleared l (.inr hstage)) h.terms.storage.noError

end FreshInv

/-- In every run in which the apply loop is settled whenever a leader is found ready, the store of the
processor shows the whole log of the leader when its term begins. -/
theorem leadsFresh_of_settled {raft : Raft} {db : RocksDBKVStore} (hrec : Recoverable raft db) (now : ℕ)
    {acts : List Act} (hG : Meets step Settled (recoverSelf raft db now) acts) {t : Node}
    (ht : exec step (recoverSelf raft db now) acts = some t) : LeadsFresh t := by
  have hinit : FreshInv (recoverSelf raft db now) := ⟨hrec.terms now, nofun⟩
  have hinv : FreshInv t :=
    exec_invariant (fun s a u hs hg hstep => hs.step hg (steps_of_step hstep)) hinit hG ht
  exact hinv.leadsFresh

/-- A log with one put, before any node has applied it. -/
def onePut : Raft where
  currentTerm := 1
  log := [⟨1, some [.write { mKey := "k", mValue := "v", mVersion := 1 }]⟩]

theorem recoverable_onePut : Recoverable onePut {} where
  role := rfl
  led := fun _ => rfl
  requests := rfl
  commitIndex_le := le_rfl
  committed_le := Nat.zero_le _
  term_le := by decide
  sorted := by decide
  noError := fun _ => rfl
  clear := rfl
  milestone_le := le_rfl
  records := rfl

/-- The node is elected and a client asks for the key; the apply loop takes its steps, and then the
thread of the client takes over. -/
def takeoverRun (applyLoop : List Act) : List Act :=
  [.raft (.elect 2), .raft (.commit 2), .refreshRoleAndTerm, .submit (.get { entry := ⟨"k"⟩ }),
    .advance 0, .advance 0, .advance 0] ++ applyLoop ++
  List.replicate 5 (.becomeLeader .ok)

theorem settled_takeoverRun : Meets step Settled (recoverSelf onePut {} 0)
    (takeoverRun [.loadBundles 2, .loadNextBundle, .applyBundle, .commitMilestone]) := by
  iterate 11 refine meets_cons rfl trivial ?_
  iterate 5 refine meets_cons rfl (fun _ _ _ _ _ => rfl) ?_
  trivial

theorem takeoverRun_committed_fresh :
    ∃ t, exec step (recoverSelf onePut {} 0)
        (takeoverRun [.loadBundles 2, .loadNextBundle, .applyBundle, .commitMilestone]) = some t ∧
      t.takeover = some ⟨.get { entry := ⟨"k"⟩ }, 2, .termSet 2⟩ ∧ LeadsFresh t := by
  obtain ⟨t, ht, htk⟩ : ∃ t, exec step (recoverSelf onePut {} 0)
      (takeoverRun [.loadBundles 2, .loadNextBundle, .applyBundle, .commitMilestone]) = some t ∧
      t.takeover = some ⟨.get { entry := ⟨"k"⟩ }, 2, .termSet 2⟩ := ⟨_, rfl, rfl⟩
  exact ⟨t, ht, htk, leadsFresh_of_settled recoverable_onePut 0 settled_takeoverRun ht⟩

/-- The bundle is in the write batch only, and the new leader does not find the key. -/
theorem takeoverRun_batched_notFound : Recoverable onePut {} ∧
    ∃ t, exec step (recoverSelf onePut {} 0)
        (takeoverRun [.loadBundles 2, .loadNextBundle, .applyBundle]) = some t ∧
      t.takeover = some ⟨.get { entry := ⟨"k"⟩ }, 2, .termSet 2⟩ ∧
      t.raft.currentTerm = 2 ∧ t.raft.log.length = 2 ∧ t.raft.commitIndex = 2 ∧
      recordsAt t.raft.log 2 "k" = some { value := "v", version := 1 } ∧
      (t.stores.mem.readKV t.stores.db t.stores.now "k" {}).1.1 = .notFound "k not found" :=
  ⟨recoverable_onePut, _, rfl, rfl, rfl, rfl, rfl, rfl, rfl⟩

end Goblin.Engine
