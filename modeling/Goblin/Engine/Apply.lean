import Goblin.Engine.Log
import Goblin.Engine.Step

/-! The apply loop: RocksDB holds a prefix of the committed log, and its write batch the bundles that
were applied after it. -/
namespace Goblin.Engine

open Model Store

/-- What the apply loop works on. -/
structure Storage where
  log : List LogEntry
  commitIndex : ℕ
  committed : ℕ
  mCachedBundles : List (List Event × ℕ)
  mAppliedIndex : ℕ
  mLoadedIndex : ℕ
  loop : EventApplyLoop
  db : RocksDBKVStore

def Node.storage (s : Node) : Storage where
  log := s.raft.log
  commitIndex := s.raft.commitIndex
  committed := s.raft.committed
  mCachedBundles := s.store.mCachedBundles
  mAppliedIndex := s.store.mAppliedIndex
  mLoadedIndex := s.store.mLoadedIndex
  loop := s.loop
  db := s.stores.db

/-- All that a step of a node does to its storage. -/
inductive StorageStep (s : Storage) : Storage → Prop
  | refl : StorageStep s s
  | append (entry : LogEntry) : StorageStep s { s with log := s.log ++ [entry] }
  | receive (log : List LogEntry) (hlen : s.committed ≤ log.length)
      (hkeep : log.take s.committed = s.log.take s.committed) : StorageStep s { s with log := log }
  | commit (index : ℕ) (hlen : index ≤ s.log.length) :
      StorageStep s { s with commitIndex := index, committed := max s.committed index }
  | load (size : ℕ) (hcached : s.mCachedBundles = []) (hidle : s.loop.applying = none)
      (hsize : s.mLoadedIndex + size ≤ s.commitIndex) :
      StorageStep s
        { s with
          mLoadedIndex := s.mLoadedIndex + size
          mCachedBundles := bundlesBetween s.log s.mLoadedIndex (s.mLoadedIndex + size) }
  | pop (b : List Event × ℕ) (rest : List (List Event × ℕ)) (hcached : s.mCachedBundles = b :: rest)
      (hidle : s.loop.applying = none) :
      StorageStep s
        { s with
          mCachedBundles := rest
          mAppliedIndex := max s.mAppliedIndex b.2
          loop := { s.loop with applying := some b } }
  | apply (b : List Event × ℕ) (happlying : s.loop.applying = some b) :
      StorageStep s
        { s with
          db := Event.applyAll s.db b.1
          loop := { s.loop with appliedIndex := b.2, appliedBundle := b.1, applying := none } }
  | flush (hidle : s.loop.applying = none) :
      StorageStep s
        { s with
          db := s.db.commit s.loop.appliedIndex
          loop := { s.loop with
            mLastMilestone := s.loop.appliedIndex
            mLastMilestoneKeyVersion := getVersionFromBundle s.loop.appliedBundle } }

/-- RocksDB has the records of the last milestone, the batch leads to those of `appliedIndex`, and the
bundles from there to `mLoadedIndex` are being applied or cached. -/
structure Storage.Inv (s : Storage) : Prop where
  noError : ∀ key, s.db.mGetError key = none
  committed_le : s.committed ≤ s.log.length
  commitIndex_le : s.commitIndex ≤ s.committed
  loaded_le : s.mLoadedIndex ≤ s.committed
  applied_le : s.loop.appliedIndex ≤ s.mLoadedIndex
  milestone_le : s.loop.mLastMilestone ≤ s.loop.appliedIndex
  mAppliedIndex_eq : s.mAppliedIndex = s.loop.applying.elim s.loop.appliedIndex Prod.snd
  pending : s.loop.applying.toList ++ s.mCachedBundles =
    bundlesBetween s.log s.loop.appliedIndex s.mLoadedIndex
  flushed : s.db.mRocksDB = recordsAt s.log s.loop.mLastMilestone
  batched : applyBatch s.db.mRocksDB s.db.mWriteBatch = recordsAt s.log s.loop.appliedIndex

namespace Storage.Inv

variable {s t : Storage}

theorem of_take (h : s.Inv) {log : List LogEntry} (hlen : s.committed ≤ log.length)
    (hkeep : log.take s.committed = s.log.take s.committed) : Storage.Inv { s with log := log } := by
  have htake {n : ℕ} (hn : n ≤ s.committed) : log.take n = s.log.take n := by
    have := congrArg (List.take n) hkeep
    rwa [List.take_take, List.take_take, Nat.min_eq_left hn] at this
  have happlied := h.applied_le.trans h.loaded_le
  exact
    { h with
      committed_le := hlen
      pending := h.pending.trans (bundlesBetween_congr (htake h.loaded_le)).symm
      flushed := h.flushed.trans (recordsAt_congr (htake (h.milestone_le.trans happlied))).symm
      batched := h.batched.trans (recordsAt_congr (htake happlied)).symm }

theorem load (h : s.Inv) {size : ℕ} (hcached : s.mCachedBundles = []) (hidle : s.loop.applying = none)
    (hsize : s.mLoadedIndex + size ≤ s.commitIndex) :
    Storage.Inv
      { s with
        mLoadedIndex := s.mLoadedIndex + size
        mCachedBundles := bundlesBetween s.log s.mLoadedIndex (s.mLoadedIndex + size) } where
  __ := h
  loaded_le := hsize.trans h.commitIndex_le
  applied_le := h.applied_le.trans (Nat.le_add_right _ _)
  pending := by
    have hnil : bundlesBetween s.log s.loop.appliedIndex s.mLoadedIndex = [] := by
      rw [← h.pending, hcached, hidle]
      rfl
    rw [← bundlesBetween_append h.applied_le (Nat.le_add_right _ size), hnil, hidle]
    rfl

theorem pop (h : s.Inv) {b : List Event × ℕ} {rest : List (List Event × ℕ)}
    (hcached : s.mCachedBundles = b :: rest) (hidle : s.loop.applying = none) :
    Storage.Inv
      { s with
        mCachedBundles := rest
        mAppliedIndex := max s.mAppliedIndex b.2
        loop := { s.loop with applying := some b } } where
  __ := h
  mAppliedIndex_eq := by
    have hb := bundlesBetween_eq_cons (by rw [← h.pending, hcached, hidle]; rfl)
    have hidx := h.mAppliedIndex_eq
    rw [hidle] at hidx
    exact max_eq_right (hidx.trans_le hb.1.le)
  pending := by
    rw [← h.pending, hcached, hidle]
    rfl

theorem apply (h : s.Inv) {b : List Event × ℕ} (happlying : s.loop.applying = some b) :
    Storage.Inv
      { s with
        db := Event.applyAll s.db b.1
        loop := { s.loop with appliedIndex := b.2, appliedBundle := b.1, applying := none } } := by
  have hpending := h.pending
  rw [happlying] at hpending
  obtain ⟨hlt, hle, hone, hrest⟩ := bundlesBetween_eq_cons hpending.symm
  have hrecords : recordsAt s.log b.2 = replay (recordsAt s.log s.loop.appliedIndex) b.1 := by
    rw [recordsAt_of_between hlt.le, hone, List.flatMap_singleton]
  rw [Event.applyAll_rocksDB]
  exact
    { h with
      applied_le := hle
      milestone_le := h.milestone_le.trans hlt.le
      mAppliedIndex_eq := by
        have hidx := h.mAppliedIndex_eq
        rwa [happlying] at hidx
      pending := hrest.symm
      batched := by
        simp only [applyBatch_append, h.batched, applyBatch_effects, hrecords] }

theorem flush (h : s.Inv) :
    Storage.Inv
      { s with
        db := s.db.commit s.loop.appliedIndex
        loop := { s.loop with
          mLastMilestone := s.loop.appliedIndex
          mLastMilestoneKeyVersion := getVersionFromBundle s.loop.appliedBundle } } where
  __ := h
  milestone_le := le_rfl
  flushed := h.batched
  batched := h.batched

theorem step (h : s.Inv) (ht : StorageStep s t) : t.Inv := by
  cases ht with
  | refl => exact h
  | append entry =>
    refine h.of_take ?_ (List.take_append_of_le_length h.committed_le)
    exact h.committed_le.trans (by simp)
  | receive log hlen hkeep => exact h.of_take hlen hkeep
  | commit index hlen =>
    exact
      { h with
        committed_le := max_le h.committed_le hlen
        commitIndex_le := le_max_right _ _
        loaded_le := h.loaded_le.trans (le_max_left _ _) }
  | load size hcached hidle hsize => exact h.load hcached hidle hsize
  | pop b rest hcached hidle => exact h.pop hcached hidle
  | apply b happlying => exact h.apply happlying
  | flush hidle => exact h.flush

end Storage.Inv

section Steps

variable {s t : Node}

theorem Raft.Steps.storage {r : Raft} (h : s.raft.Steps r) :
    StorageStep s.storage { s with raft := r }.storage := by
  cases h with
  | follow term hlt | drop req rest hreq => exact .refl
  | elect term helect | accept req rest hreq hrole hterm hindex => exact .append _
  | receive log hrole hlog => exact .receive log hlog.1 hlog.2.1
  | commit index hlt hle => exact .commit index hle

theorem Steps.storage {a : Act} (h : Steps s a t) : StorageStep s.storage t.storage := by
  cases h with
  | raft a r hr => exact hr.storage
  | load size hcached hidle hpos hsize =>
    rw [Raft.loadBundles_eq]
    exact StorageStep.load (s := s.storage) size hcached hidle hsize
  | pop b rest hcached hidle => exact StorageStep.pop (s := s.storage) b rest hcached hidle
  | apply b happlying => exact StorageStep.apply (s := s.storage) b happlying
  | flush hidle hlt => exact StorageStep.flush (s := s.storage) hidle
  | call i c o next hc hstage => cases o <;> exact .refl
  | finish i c r d replies hc hstage hreplies =>
    unfold Command.finish
    split <;> exact .refl
  | _ => exact .refl

end Steps

end Goblin.Engine
