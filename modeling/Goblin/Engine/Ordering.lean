import Goblin.Engine.Replicas
import Goblin.Engine.Sequence

/-! The order of what a cluster commits: versions along the log, whoever has led. -/
namespace Goblin.Engine

open Model Lib List Option

section Logs

variable {log : List LogEntry} {i j : ℕ} {bundle bundle' : List Event}

theorem Ordered.bundle_lt (h : Ordered log) (hi : (entryAt log i).bind LogEntry.bundle = some bundle)
    (hj : (entryAt log j).bind LogEntry.bundle = some bundle') (hij : i < j) :
    getVersionFromBundle bundle < getVersionFromBundle bundle' := by
  obtain ⟨entry, hentry, hbundle⟩ := bind_eq_some_iff.mp hi
  obtain ⟨⟨term, b⟩, hentry', hbundle'⟩ := bind_eq_some_iff.mp hj
  cases hbundle'
  obtain ⟨n, rfl⟩ : ∃ n, j = n + 1 := ⟨j - 1, by omega⟩
  have htake : log.take (n + 1) = log.take n ++ [⟨term, some bundle'⟩] := by
    rw [take_add_one, ← entryAt_succ, hentry']
    rfl
  have hsplit : bundleVersions (log.take (n + 1)) =
      bundleVersions (log.take n) ++ [getVersionFromBundle bundle'] := by
    rw [htake, bundleVersions_append]
    rfl
  have hpairs := (pairwise_cons.mp (h.take (n + 1)).2).2
  rw [hsplit] at hpairs
  exact (pairwise_append.mp hpairs).2.2 _ (mem_bundleVersions_take hentry hbundle (by omega)) _
    (mem_singleton_self _)

theorem Ordered.version_ne (h : Ordered log) (hi : (entryAt log i).bind LogEntry.bundle = some bundle) :
    getVersionFromBundle bundle ≠ kInvalidVersion := by
  obtain ⟨entry, hentry, hbundle⟩ := bind_eq_some_iff.mp hi
  have hmem := mem_bundleVersions_take hentry hbundle le_rfl
  exact ((pairwise_cons.mp (h.take i).2).1 _ hmem).ne'

end Logs

/-- Versions stay in order as well, as long as nothing comes between the stores of a new leader. -/
theorem Sequenced.kept :
    Kept (fun s => s.Sound ∧ Sequenced s) (fun log => UniformLog log ∧ Ordered log) Quiet where
  pipeline _ h := h.2.pipeline
  log _ h := ⟨h.1.log, h.2.ordered⟩
  take log k h := ⟨Node.Sound.kept.take log k h.1, h.2.take k⟩
  raft _ _ h hr := ⟨h.1.raftStep ⟨hr.1, fun hrole => (hr.2 hrole).1⟩, h.2.raftStep hr.1 fun hrole => (hr.2 hrole).2⟩
  engine s a t h hquiet ht ha := by
    have hsound := h.1.step ht ha
    refine ⟨hsound, h.2.step hquiet (fun _ => ?_) ht⟩
    cases ht with
    | raft => cases ha
    | _ => exact h.2.ordered
  restart s server h hterm hlog hcommitted := by
    refine ⟨Node.Sound.kept.restart s server h.1 hterm hlog hcommitted, ?_⟩
    exact (h.1.recoverable hterm hlog hcommitted).sequenced (hlog ▸ h.2.ordered) _
  initial := ⟨Node.Sound.kept.initial, recoverable_empty.sequenced (by decide) 0⟩

namespace Cluster

variable {N : Type*} [DecidableEq N] {members : List N} {s : Cluster N}

variable {Q : Node → Prop} {P : List LogEntry → Prop}

/-- Some node knows the bundle to be committed at the index. -/
def Commits (s : Cluster N) (index : ℕ) (bundle : List Event) : Prop :=
  ∃ n, index ≤ (s.node n).raft.committed ∧
    (entryAt (s.node n).raft.log index).bind LogEntry.bundle = some bundle

theorem Inv.entryAt_eq (h : Inv Q P members s) {n n' : N} {index : ℕ} (hn : index ≤ (s.node n).raft.committed)
    (hn' : index ≤ (s.node n').raft.committed) :
    entryAt (s.node n).raft.log index = entryAt (s.node n').raft.log index := by
  have hr := h.reflects n
  have hr' := h.reflects n'
  rw [← hr.committed_eq] at hn
  rw [← hr'.committed_eq] at hn'
  have hagree := h.protocol.known_agree n n' hn hn'
  rw [hr.log_eq, hr'.log_eq] at hagree
  exact entryAt_eq_of_take hagree le_rfl

omit [DecidableEq N] in
theorem Commits.uniform {index : ℕ} {bundle : List Event} (hc : s.Commits index bundle)
    (h : ∀ n, UniformLog (s.node n).raft.log) : UniformBundle bundle := by
  obtain ⟨n, -, hbundle⟩ := hc
  obtain ⟨entry, hentry, hsome⟩ := bind_eq_some_iff.mp hbundle
  unfold entryAt at hentry
  split_ifs at hentry
  exact h n entry (mem_of_getElem? hentry) bundle hsome

/-- In every run of a cluster in which no update of the version comes between the stores of a new leader, the versions
of what is committed increase with the index, also from one leader to the next, all events of a bundle carry its
version, and no version is invalid. -/
theorem versions_increase {acts : List (ClusterAct N)} (hG : Meets (step members) (Guarded Quiet) {} acts)
    (hs : exec (step members) {} acts = some s) :
    (∀ i j bundle bundle', s.Commits i bundle → s.Commits j bundle' → i < j →
      getVersionFromBundle bundle < getVersionFromBundle bundle') ∧
    ∀ i bundle, s.Commits i bundle → getVersionFromBundle bundle ≠ kInvalidVersion ∧
      ∀ e ∈ bundle, e.version = getVersionFromBundle bundle := by
  have hinv := (Inv.initial Sequenced.kept).of_exec Sequenced.kept hG hs
  refine ⟨fun i j bundle bundle' hi hj hij => ?_, fun i bundle hi => ?_⟩
  · obtain ⟨n, hn, hbundle⟩ := hi
    obtain ⟨n', hn', hbundle'⟩ := hj
    rw [hinv.entryAt_eq hn (hij.le.trans hn')] at hbundle
    exact (hinv.nodes n').2.ordered.bundle_lt hbundle hbundle' hij
  · have huniform := hi.uniform fun n => (hinv.nodes n).1.log
    obtain ⟨n, -, hbundle⟩ := hi
    exact ⟨(hinv.nodes n).2.ordered.version_ne hbundle, huniform.2⟩

/-- What the engine of a new leader does for its first put, up to the request to Raft. -/
def putOn {N : Type*} (n : N) (value : ValueType) : List (ClusterAct N) :=
  [.refreshRoleAndTerm, .submit (.put { key := "k", value := value }), .advance 0, .advance 0, .advance 0,
    .becomeLeader .ok, .becomeLeader .ok, .becomeLeader .ok, .becomeLeader .ok, .becomeLeader .ok,
    .becomeLeader .ok, .start 0 .ok, .call 0, .call 0, .dispatch 0, .finish 0, .dequeue, .send, .compareExchange,
    .sendBatch].map (.engine n)

/-- A put on a node that leads already. -/
def putAgain {N : Type*} (n : N) (value : ValueType) : List (ClusterAct N) :=
  [.submit (.put { key := "k", value := value }), .advance 0, .advance 0, .start 0 .ok, .call 0, .call 0,
    .dispatch 0, .finish 0, .dequeue, .send, .compareExchange, .sendBatch].map (.engine n)

/-- Three nodes, of which two lead one after the other and put the same key. -/
def twoLeaders : List (ClusterAct (Fin 3)) := List.flatten
  [[.campaign 0, .vote 1 0 1, .win 0 [0, 1], .replicate 1 1 0 1 0, .commit 0 1 [0, 1],
      .engine 0 (.loadBundles 1)], putOn 0 "v",
    [.accept 0, .replicate 1 1 1 1 1, .commit 0 2 [0, 1],
      .campaign 1, .vote 2 1 2, .win 1 [1, 2], .replicate 2 2 0 3 0, .commit 1 3 [1, 2],
      .engine 1 (.loadBundles 3), .engine 1 .loadNextBundle], putOn 1 "w",
    [.accept 1, .replicate 2 2 3 1 3, .commit 1 4 [1, 2]]]

/-- The put of the second leader has a greater version. -/
theorem twoLeaders_increase : ∃ s bundle bundle', exec (step [0, 1, 2]) {} twoLeaders = some s ∧
    s.Commits 2 bundle ∧ s.Commits 4 bundle' ∧
      getVersionFromBundle bundle < getVersionFromBundle bundle' := by
  obtain ⟨s, hs, hcommitted, hcommitted', hsome, hsome'⟩ : ∃ s, exec (step [0, 1, 2]) {} twoLeaders = some s ∧
      2 ≤ (s.node 0).raft.committed ∧ 4 ≤ (s.node 1).raft.committed ∧
        ((entryAt (s.node 0).raft.log 2).bind LogEntry.bundle).isSome ∧
          ((entryAt (s.node 1).raft.log 4).bind LogEntry.bundle).isSome :=
    exists_exec_of_any (by decide +kernel)
  obtain ⟨bundle, hbundle⟩ := isSome_iff_exists.mp hsome
  obtain ⟨bundle', hbundle'⟩ := isSome_iff_exists.mp hsome'
  have hi : s.Commits 2 bundle := ⟨0, hcommitted, hbundle⟩
  have hj : s.Commits 4 bundle' := ⟨1, hcommitted', hbundle'⟩
  exact ⟨s, bundle, bundle', hs, hi, hj,
    (versions_increase (by decide +kernel) hs).1 2 4 bundle bundle' hi hj (by decide)⟩

/-- As the leader recovers the newest version of the log, the reply loop stores the one that it has loaded. -/
def recoverLate : List Act :=
  [.loadBundles 4, .loadNextBundle, .applyBundle, .loadNextBundle, .applyBundle, .loadNextBundle,
    .refreshRoleAndTerm, .submit (.put { key := "k", value := "x" }), .advance 0, .advance 0, .advance 0,
    .becomeLeader .ok, .becomeLeader .ok, .updateCurMaxVersion 0, .becomeLeader .ok, .becomeLeader .ok,
    .becomeLeader .ok, .becomeLeader .ok, .start 0 .ok, .call 0, .call 0, .dispatch 0, .finish 0, .dequeue, .send,
    .compareExchange, .sendBatch]

/-- One node. It answers its first put, for which the reply loop has loaded the newest version when it takes two more
and is elected again. -/
def lateUpdate : List (ClusterAct (Fin 1)) := List.flatten
  [[.campaign 0, .win 0 [0], .commit 0 1 [0], .engine 0 (.loadBundles 1)], putOn 0 "u",
    [.accept 0, .commit 0 2 [0], .engine 0 (.replyTask 0), .engine 0 (.updateCurMaxVersion 0),
      .engine 0 (.updateCurMaxVersion 0)], putAgain 0 "v", putAgain 0 "w",
    [.accept 0, .accept 0, .commit 0 4 [0], .campaign 0, .win 0 [0], .commit 0 5 [0]],
    recoverLate.map (.engine 0), [.accept 0, .commit 0 6 [0]]]

/-- The next put has a version that is committed already, and a newer one before it. -/
theorem lateUpdate_repeats : ∃ s bundle bundle', exec (step [0]) {} lateUpdate = some s ∧
    s.Commits 4 bundle ∧ s.Commits 6 bundle' ∧ getVersionFromBundle bundle = 3 ∧
      getVersionFromBundle bundle' = 2 := by
  obtain ⟨s, hs, ⟨hle, hle'⟩, hbundle, hbundle'⟩ : ∃ s, exec (step [0]) {} lateUpdate = some s ∧
      (4 ≤ (s.node 0).raft.committed ∧ 6 ≤ (s.node 0).raft.committed) ∧
      ((entryAt (s.node 0).raft.log 4).bind LogEntry.bundle).map getVersionFromBundle = some 3 ∧
      ((entryAt (s.node 0).raft.log 6).bind LogEntry.bundle).map getVersionFromBundle = some 2 :=
    exists_exec_of_any (by decide +kernel)
  obtain ⟨bundle, hsome, hversion⟩ := map_eq_some_iff.mp hbundle
  obtain ⟨bundle', hsome', hversion'⟩ := map_eq_some_iff.mp hbundle'
  exact ⟨s, bundle, bundle', hs, ⟨0, hle, hsome⟩, ⟨0, hle', hsome'⟩, hversion, hversion'⟩

variable {acts acts' : List (ClusterAct N)} {t : Cluster N} {n n' : N}

theorem SoundInv.take_exec {k : ℕ} (h : SoundInv members s) (ht : exec (Cluster.step members) s acts = some t)
    (hk : k ≤ (s.node n).raft.committed) (hk' : k ≤ (t.node n').raft.committed) :
    (t.node n').raft.log.take k = (s.node n).raft.log.take k := by
  let I (u : Cluster N) := SoundInv members u ∧ k ≤ (u.protocol.server n).known ∧
    (u.protocol.server n).log.take k = (s.node n).raft.log.take k
  have hstep : ∀ u a v, I u → Cluster.step members u a = some v → I v := by
    rintro u a v ⟨hu, hle, htake⟩ hv
    obtain ⟨hinv, m, hb⟩ := SoundInv.step hu hv
    obtain ⟨hknown, hkept⟩ := hu.protocol.known_stable hb hinv.protocol n
    have hcut := congrArg (List.take k) hkept
    rw [take_take, take_take, Nat.min_eq_left hle] at hcut
    exact ⟨hinv, hle.trans hknown, hcut.trans htake⟩
  have hr := h.reflects n
  have hinit : I s := ⟨h, hr.committed_eq ▸ hk, by rw [hr.log_eq]⟩
  obtain ⟨hinv, hle, htake⟩ := exec_invariant_of_step hstep hinit ht
  have hr' := hinv.reflects n'
  rw [← htake, ← hr'.log_eq]
  exact hinv.protocol.known_agree n' n (hr'.committed_eq ▸ hk') hle

/-- The flushed write batches of a node have left what the log leads to up to its milestone: the log of any node that,
then or later, has committed as much. -/
theorem replicas_agree (hs : exec (step members) {} acts = some s) (ht : exec (step members) s acts' = some t)
    (hle : (s.node n).stores.db.mMilestone ≤ (t.node n').raft.committed) :
    (s.node n).stores.db.mRocksDB = recordsAt (t.node n').raft.log (s.node n).stores.db.mMilestone := by
  have hinv := SoundInv.reached hs
  have hstorage := (hinv.nodes n).pipeline.terms.storage
  have hcommitted := hstorage.milestone_le.trans (hstorage.applied_le.trans hstorage.loaded_le)
  rw [(hinv.nodes n).milestone] at hle ⊢
  exact hstorage.flushed.trans (recordsAt_congr (SoundInv.take_exec hinv ht hcommitted hle)).symm

theorem twoLeaders_agree : ∃ s, exec (step [0, 1, 2]) {} (twoLeaders ++
      [.engine 1 .applyBundle, .engine 1 .commitMilestone]) = some s ∧ (s.node 1).stores.db.mMilestone = 2 ∧
    (s.node 1).stores.db.mRocksDB = recordsAt (s.node 2).raft.log (s.node 1).stores.db.mMilestone := by
  obtain ⟨s, hs, hmilestone, hle⟩ : ∃ s, exec (step [0, 1, 2]) {} (twoLeaders ++
      [.engine 1 .applyBundle, .engine 1 .commitMilestone]) = some s ∧ (s.node 1).stores.db.mMilestone = 2 ∧
      (s.node 1).stores.db.mMilestone ≤ (s.node 2).raft.committed := exists_exec_of_any (by decide +kernel)
  exact ⟨s, hs, hmilestone, replicas_agree hs (exec_nil s) hle⟩

/-- A write that is answered with success stays in the log of every node that has committed as much. -/
theorem acknowledged_survives (hs : exec (step members) {} acts = some s)
    (ht : exec (step members) s acts' = some t) {task : Task} (htask : task ∈ (s.node n).tasks)
    (hwrite : task.mIndex ≠ 0) (hok : (s.node n).isCommitted task = some true)
    (hn' : task.mIndex ≤ (t.node n').raft.committed) :
    entryAt (t.node n').raft.log task.mIndex = some ⟨task.mTerm, some task.events⟩ := by
  have hinv := SoundInv.reached hs
  have hpipeline := (hinv.nodes n).pipeline
  obtain ⟨hcommitted, entry, hentry, hterm⟩ := Node.entryAt_of_isCommitted hpipeline.terms.storage hwrite hok
  rw [entryAt_eq_of_take (SoundInv.take_exec hinv ht hcommitted hn') le_rfl, hentry,
    hpipeline.entry_eq htask hwrite hentry hterm]

/-- Node 2, which the first leader has never written to, has its put. -/
theorem twoLeaders_survives : ∃ s task, exec (step [0, 1, 2]) {} twoLeaders = some s ∧
    task ∈ (s.node 0).tasks ∧ (s.node 0).isCommitted task = some true ∧
    entryAt (s.node 2).raft.log task.mIndex = some ⟨task.mTerm, some task.events⟩ := by
  obtain ⟨s, hs, task, htask, hwrite, hok, hle⟩ : ∃ s, exec (step [0, 1, 2]) {} twoLeaders = some s ∧
      ∃ task ∈ (s.node 0).tasks, task.mIndex ≠ 0 ∧ (s.node 0).isCommitted task = some true ∧
        task.mIndex ≤ (s.node 2).raft.committed := exists_exec_of_any (by decide +kernel)
  exact ⟨s, task, hs, htask, hok, acknowledged_survives hs (exec_nil s) htask hwrite hok hle⟩

end Cluster

end Goblin.Engine
