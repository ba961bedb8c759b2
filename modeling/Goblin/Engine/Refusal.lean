import Goblin.Lib.Consensus.Barred
import Goblin.Engine.Ordering

/-! Writes that are answered with NOT_LEADER, and what later leaders may still do with them. -/
namespace Goblin.Engine

open Model Lib Option

/-- The log of this node has become too short for the entry, but the node knows that an entry of a later
term is committed, or it never had an entry at the index when it was leader of the term. -/
def Raft.GoneFor (r : Raft) (index term : ℕ) : Prop :=
  Superseded r term index ∨ ∀ own, r.led term = some own → own.length < index

theorem Raft.waitTillCommittedOrQuit_false {r : Raft} {index term : ℕ}
    (h : r.waitTillCommittedOrQuit index term = some false) :
    r.log.length < index ∧ term < r.currentTerm ∨
      index ≤ r.commitIndex ∧ ∃ entry, entryAt r.log index = some entry ∧ entry.term ≠ term := by
  unfold Raft.waitTillCommittedOrQuit at h
  split_ifs at h with hterm hquit hcommit
  · exact .inl hquit
  · obtain ⟨entry, hentry, hne⟩ := map_eq_some_iff.mp h
    exact .inr ⟨Nat.le_of_not_lt hcommit, entry, hentry, of_decide_eq_false hne⟩

namespace Cluster

variable {N : Type*} [DecidableEq N] {members : List N} {s s' : Cluster N}

/-- The entry with the index is committed on the node, in the term. -/
def CommittedOn (s : Cluster N) (n : N) (index term : ℕ) : Prop :=
  index ≤ (s.node n).raft.committed ∧
    ∃ entry, entryAt (s.node n).raft.log index = some entry ∧ entry.term = term

theorem SoundInv.barred_exec {acts : List (ClusterAct N)} (h : SoundInv members s)
    (hs : exec (Cluster.step members) s acts = some s') {term position : ℕ}
    (hbar : Consensus.Barred LogEntry.term s.protocol term position) :
    Consensus.Barred LogEntry.term s'.protocol term position := by
  let I (u : Cluster N) := SoundInv members u ∧ Consensus.Barred LogEntry.term u.protocol term position
  have hstep : ∀ u a v, I u → Cluster.step members u a = some v → I v := by
    intro u a v hu hv
    obtain ⟨hinv, n, hb⟩ := SoundInv.step hu.1 hv
    exact ⟨hinv, hu.2.step hu.1.protocol hb hinv.protocol⟩
  exact (exec_invariant_of_step hstep (show I s from ⟨h, hbar⟩) hs).2

theorem SoundInv.barred_of_committed (h : SoundInv members s) {n : N} {i index term : ℕ} {entry : LogEntry}
    (hi : i ≤ index) (hcommitted : i ≤ (s.node n).raft.committed)
    (hentry : entryAt (s.node n).raft.log i = some entry)
    (hterm : term < entry.term ∨ i = index ∧ entry.term ≠ term) :
    Consensus.Barred LogEntry.term s.protocol term (index - 1) := by
  have hr := h.reflects n
  unfold entryAt at hentry
  split_ifs at hentry with h0
  refine .replaced n (i - 1) entry (by omega) ?_ (hr.log_eq ▸ hentry) ?_
  · rw [hr.committed_eq]
    omega
  · exact hterm.imp_right fun ⟨heq, hne⟩ => ⟨by rw [heq], hne⟩

theorem SoundInv.barred (h : SoundInv members s) {n : N} {task : Task} (htask : task ∈ (s.node n).tasks)
    (hwrite : task.mIndex ≠ 0)
    (hfalse : (s.node n).raft.waitTillCommittedOrQuit task.mIndex task.mTerm = some false)
    (hgone : (s.node n).raft.log.length < task.mIndex → (s.node n).raft.GoneFor task.mIndex task.mTerm) :
    Consensus.Barred LogEntry.term s.protocol task.mTerm (task.mIndex - 1) := by
  have hr := h.reflects n
  have hpipeline := (h.nodes n).pipeline
  rcases Raft.waitTillCommittedOrQuit_false hfalse with ⟨hshort, hterm⟩ | ⟨hcommit, entry, hentry, hne⟩
  · rcases hgone hshort with ⟨i, hi, hcommitted, entry, hentry, hlt⟩ | hunwritten
    · exact SoundInv.barred_of_committed h hi hcommitted hentry (.inl hlt)
    · obtain ⟨-, hled, -⟩ := hpipeline.taskLed task htask hwrite
      obtain ⟨own, hown⟩ := isSome_iff_exists.mp hled
      obtain ⟨l, hl, hnode, rfl⟩ := hr.led task.mTerm own hown
      have hlen := hunwritten l.log hown
      refine .unwritten l hl (by omega) ?_
      rw [hnode, hr.currentTerm_eq]
      exact hterm
  · exact SoundInv.barred_of_committed h le_rfl (hcommit.trans hpipeline.terms.storage.commitIndex_le) hentry
      (.inr ⟨rfl, hne⟩)

/-- A write that is answered with NOT_LEADER is not committed on any node, however the run goes on, if
the node had a reason to give up when its log had become too short. -/
theorem refused_never_committed {acts acts' : List (ClusterAct N)}
    (hs : exec (step members) {} acts = some s) {n : N} {task : Task} (htask : task ∈ (s.node n).tasks)
    (hwrite : task.mIndex ≠ 0)
    (hfalse : (s.node n).raft.waitTillCommittedOrQuit task.mIndex task.mTerm = some false)
    (hgone : (s.node n).raft.log.length < task.mIndex → (s.node n).raft.GoneFor task.mIndex task.mTerm)
    (hs' : exec (step members) s acts' = some s') (m : N) :
    ¬ s'.CommittedOn m task.mIndex task.mTerm := by
  have hinv := SoundInv.reached hs
  have hinv' := SoundInv.of_exec hinv hs'
  have hbar := SoundInv.barred_exec hinv hs' (SoundInv.barred hinv htask hwrite hfalse hgone)
  rintro ⟨hcommitted, entry, hentry, hterm⟩
  have hr := hinv'.reflects m
  unfold entryAt at hentry
  rw [if_neg hwrite, ← hr.log_eq] at hentry
  refine hbar.termOf_ne hinv'.protocol ?_ hentry hterm
  rw [hr.committed_eq]
  omega

/-- Five nodes. Node 0 leads term 1; two puts reach its log and that of node 1. Then node 2 leads term 2
with the votes of nodes 3 and 4. -/
def overtaken : List (ClusterAct (Fin 5)) :=
  [.campaign 0, .vote 1 0 1, .vote 2 0 1, .win 0 [0, 1, 2], .replicate 1 1 0 1 0, .replicate 2 1 0 1 0,
    .commit 0 1 [0, 1, 2], .replicate 3 1 0 1 1, .replicate 4 1 0 1 1, .engine 0 (.loadBundles 1)] ++
  putOn 0 "v" ++ putAgain 0 "w" ++
  [.accept 0, .accept 0, .replicate 1 1 1 2 1,
    .campaign 2, .vote 3 2 2, .vote 4 2 2, .win 2 [2, 3, 4]]

/-- The new leader commits its noop, and node 0 learns it together with the entry. -/
def toldOfCommit : List (ClusterAct (Fin 5)) :=
  overtaken ++ [.replicate 3 2 1 1 0, .replicate 4 2 1 1 0, .commit 2 2 [2, 3, 4], .replicate 0 2 1 1 2]

/-- Node 0 hears from the new leader before its noop is committed. -/
def toldEarly : List (ClusterAct (Fin 5)) := overtaken ++ [.replicate 0 2 1 1 0]

/-- Node 0 refuses the second put. Node 1, which still has both, leads term 3 and commits them. -/
def thirdLeader : List (ClusterAct (Fin 5)) :=
  [.engine 0 (.replyTask 1), .campaign 1, .campaign 1, .vote 3 1 3, .vote 4 1 3, .win 1 [1, 3, 4],
    .replicate 3 3 0 4 0, .replicate 4 3 0 4 0, .commit 1 4 [1, 3, 4]]

theorem toldOfCommit_never_committed : ∃ s task s',
    exec (step [0, 1, 2, 3, 4]) {} toldOfCommit = some s ∧ task ∈ (s.node 0).tasks ∧
    (s.node 0).raft.waitTillCommittedOrQuit task.mIndex task.mTerm = some false ∧
    exec (step [0, 1, 2, 3, 4]) s [.replicate 1 2 1 1 2] = some s' ∧
    ∀ m, ¬ s'.CommittedOn m task.mIndex task.mTerm := by
  obtain ⟨s, hs, ⟨task, htask, hindex, hterm, hfalse⟩, hcommitted, hentry, hsome⟩ : ∃ s,
      exec (step [0, 1, 2, 3, 4]) {} toldOfCommit = some s ∧
      (∃ task ∈ (s.node 0).tasks, task.mIndex = 3 ∧ task.mTerm = 1 ∧
        (s.node 0).raft.waitTillCommittedOrQuit task.mIndex task.mTerm = some false) ∧
      2 ≤ (s.node 0).raft.committed ∧ entryAt (s.node 0).raft.log 2 = some ⟨2, none⟩ ∧
      (exec (step [0, 1, 2, 3, 4]) s [.replicate 1 2 1 1 2]).isSome :=
    exists_exec_of_any (by decide +kernel)
  obtain ⟨s', hs'⟩ := isSome_iff_exists.mp hsome
  refine ⟨s, task, s', hs, htask, hfalse, hs', fun m => ?_⟩
  refine refused_never_committed hs htask (by rw [hindex]; decide) hfalse (fun _ => .inl ?_) hs' m
  exact ⟨2, by rw [hindex]; decide, hcommitted, _, hentry, by rw [hterm]; decide⟩

theorem toldEarly_committed_later : ∃ s task s',
    exec (step [0, 1, 2, 3, 4]) {} toldEarly = some s ∧ task ∈ (s.node 0).tasks ∧ task.mIndex ≠ 0 ∧
    (s.node 0).raft.waitTillCommittedOrQuit task.mIndex task.mTerm = some false ∧
    exec (step [0, 1, 2, 3, 4]) s thirdLeader = some s' ∧
    s'.CommittedOn 1 task.mIndex task.mTerm := by
  obtain ⟨s, hs, task, htask, hwrite, hfalse, hlater⟩ : ∃ s,
      exec (step [0, 1, 2, 3, 4]) {} toldEarly = some s ∧
      ∃ task ∈ (s.node 0).tasks, task.mIndex ≠ 0 ∧
        (s.node 0).raft.waitTillCommittedOrQuit task.mIndex task.mTerm = some false ∧
        (exec (step [0, 1, 2, 3, 4]) s thirdLeader).any fun s' =>
          task.mIndex ≤ (s'.node 1).raft.committed ∧
            (entryAt (s'.node 1).raft.log task.mIndex).map LogEntry.term = some task.mTerm :=
    exists_exec_of_any (by decide +kernel)
  obtain ⟨s', hs', hcommitted, hentry⟩ := exists_exec_of_any hlater
  obtain ⟨entry, hentry, hterm⟩ := map_eq_some_iff.mp hentry
  exact ⟨s, task, s', hs, htask, hwrite, hfalse, hs', hcommitted, entry, hentry, hterm⟩

end Cluster

end Goblin.Engine
