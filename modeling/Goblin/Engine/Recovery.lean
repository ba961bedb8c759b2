import Goblin.Lib.Run
import Goblin.Engine.Log

/-! Crash recovery of the apply loop: what RocksDB holds after any number of crashes, retries and
extra flushes. -/
namespace Goblin.Engine.Recovery

open Model Store Lib List

/-- `EventApplyLoop` and the reading side of `RaftEventStore`, over a RocksDB that survives crashes.
`left` holds the events of the bundle that the current attempt has not applied yet. -/
structure Loop where
  db : RocksDBKVStore := {}
  mLastMilestone : ℕ := 0
  appliedIndex : ℕ := 0
  mLoadedIndex : ℕ := 0
  mAppliedIndex : ℕ := 0
  mCachedBundles : List (List Event × ℕ) := []
  applying : Option (List Event × ℕ) := none
  left : List Event := []

inductive Act
  | load (size : ℕ)
  | loadNextBundle
  | apply
  | retry
  | finish
  | commit
  | flush
  | crash

variable (log : List LogEntry)

/-- A new process that has gone through `recoverSelf`; the write batch was lost. -/
def recoverSelf (db : RocksDBKVStore) : Loop where
  db := { db with mWriteBatch := [] }
  mLastMilestone := db.mMilestone
  appliedIndex := db.mMilestone
  mLoadedIndex := db.mMilestone
  mAppliedIndex := db.mMilestone

def step (s : Loop) : Act → Option Loop
  | .load size =>
    if s.mCachedBundles = [] ∧ s.applying = none ∧ s.mLoadedIndex + size ≤ log.length then some
      { s with
        mLoadedIndex := s.mLoadedIndex + size
        mCachedBundles := bundlesBetween log s.mLoadedIndex (s.mLoadedIndex + size) }
    else none
  | .loadNextBundle =>
    match s.applying, s.mCachedBundles with
    | none, b :: rest => some
      { s with
        mCachedBundles := rest
        mAppliedIndex := max s.mAppliedIndex b.2
        applying := some b
        left := b.1 }
    | _, _ => none
  | .apply =>
    match s.left with
    | e :: left => some { s with db := e.apply s.db, left := left }
    | [] => none
  | .retry => s.applying.map fun b => { s with left := b.1 }
  | .finish =>
    match s.applying, s.left with
    | some b, [] => some { s with appliedIndex := b.2, applying := none }
    | _, _ => none
  | .commit =>
    if s.applying = none ∧ s.mLastMilestone < s.appliedIndex then some
      { s with db := s.db.commit s.appliedIndex, mLastMilestone := s.appliedIndex }
    else none
  | .flush => some { s with db := s.db.flushToRocksDB }
  | .crash => some (recoverSelf s.db)

/-- The records of RocksDB with the write batch on top. -/
def Loop.content (s : Loop) : RecordMap := applyBatch s.db.mRocksDB s.db.mWriteBatch

/-- The events that the loop has still to go through. -/
def remaining (s : Loop) : List Event :=
  s.left ++ (s.mCachedBundles.flatMap Prod.fst ++ logEvents (log.drop s.mLoadedIndex))

/-- The loop is within the log, and what is left of the log leads from the records that it works on,
and from those that survive a crash, to the records of the whole log. -/
structure Inv (s : Loop) : Prop where
  loaded_le : s.mLoadedIndex ≤ log.length
  applied_le : s.appliedIndex ≤ s.mLoadedIndex
  milestone_le : s.db.mMilestone ≤ s.appliedIndex
  pending : s.applying.toList ++ s.mCachedBundles = bundlesBetween log s.appliedIndex s.mLoadedIndex
  attempt : ∃ done, s.applying.elim [] Prod.fst = done ++ s.left
  recovers : replay s.content (remaining log s) = recordsAt log log.length
  survives : replay s.db.mRocksDB (logEvents (log.drop s.db.mMilestone)) = recordsAt log log.length

variable {log}

theorem logEvents_drop {m n : ℕ} (hmn : m ≤ n) :
    logEvents (log.drop m) = (bundlesBetween log m n).flatMap Prod.fst ++ logEvents (log.drop n) := by
  have hsplit (k : ℕ) : logEvents log = logEvents (log.take k) ++ logEvents (log.drop k) := by
    rw [← logEvents_append, take_append_drop]
  have heq := hsplit m
  rw [hsplit n, logEvents_take hmn, append_assoc] at heq
  exact (append_cancel_left heq).symm

theorem replay_rewind {c : RecordMap} {m : ℕ} {xs ys : List Event}
    (hevents : logEvents (log.drop m) = xs ++ ys)
    (h : replay c ys = recordsAt log log.length) : replay c (xs ++ ys) = recordsAt log log.length := by
  have hlog : recordsAt log log.length =
      replay (fun _ => none) (logEvents (log.take m) ++ (xs ++ ys)) := by
    rw [recordsAt, take_length, ← hevents, ← logEvents_append, take_append_drop]
  rw [hlog] at h ⊢
  exact replayOn_rewind Event.effect h

namespace Inv

variable {s t : Loop}

theorem logEvents_applied (h : Inv log s) :
    ∃ done, s.applying.elim [] Prod.fst = done ++ s.left ∧
      logEvents (log.drop s.appliedIndex) = done ++ remaining log s := by
  obtain ⟨done, hdone⟩ := h.attempt
  refine ⟨done, hdone, ?_⟩
  rw [logEvents_drop h.applied_le, ← h.pending, flatMap_append, remaining, ← append_assoc,
    ← hdone, append_assoc]
  cases s.applying <;> simp

theorem replay_applied (h : Inv log s) :
    replay s.content (logEvents (log.drop s.appliedIndex)) = recordsAt log log.length := by
  obtain ⟨done, -, hevents⟩ := h.logEvents_applied
  rw [hevents]
  exact replay_rewind hevents h.recovers

theorem replay_milestone (h : Inv log s) :
    replay s.content (logEvents (log.drop s.db.mMilestone)) = recordsAt log log.length := by
  have hevents : logEvents (log.drop s.db.mMilestone) = _ := logEvents_drop h.milestone_le
  rw [hevents]
  exact replay_rewind hevents h.replay_applied

theorem left_eq_nil (h : Inv log s) (hidle : s.applying = none) : s.left = [] := by
  obtain ⟨done, hdone⟩ := h.attempt
  rw [hidle] at hdone
  exact (append_eq_nil_iff.mp hdone.symm).2

theorem load (h : Inv log s) {size : ℕ} (hcached : s.mCachedBundles = []) (hidle : s.applying = none)
    (hsize : s.mLoadedIndex + size ≤ log.length) :
    Inv log
      { s with
        mLoadedIndex := s.mLoadedIndex + size
        mCachedBundles := bundlesBetween log s.mLoadedIndex (s.mLoadedIndex + size) } where
  __ := h
  loaded_le := hsize
  applied_le := h.applied_le.trans (Nat.le_add_right _ _)
  pending := by
    have hnil : bundlesBetween log s.appliedIndex s.mLoadedIndex = [] := by
      rw [← h.pending, hcached, hidle]
      rfl
    rw [← bundlesBetween_append h.applied_le (Nat.le_add_right _ size), hnil, hidle]
    rfl
  recovers := by
    have hevents : logEvents (log.drop s.mLoadedIndex) = _ := logEvents_drop (Nat.le_add_right _ size)
    have hsame := h.recovers
    rw [remaining, hcached, flatMap_nil, nil_append, hevents] at hsame
    exact hsame

theorem loadNextBundle (h : Inv log s) {b : List Event × ℕ} {rest : List (List Event × ℕ)}
    (hidle : s.applying = none) (hcached : s.mCachedBundles = b :: rest) :
    Inv log
      { s with
        mCachedBundles := rest
        mAppliedIndex := max s.mAppliedIndex b.2
        applying := some b
        left := b.1 } where
  __ := h
  pending := by
    rw [← h.pending, hidle, hcached]
    rfl
  attempt := ⟨[], rfl⟩
  recovers := by
    have hsame := h.recovers
    rw [remaining, h.left_eq_nil hidle, hcached, flatMap_cons, nil_append,
      append_assoc] at hsame
    exact hsame

theorem apply (h : Inv log s) {e : Event} {left : List Event} (hleft : s.left = e :: left) :
    Inv log { s with db := e.apply s.db, left := left } := by
  have heffect : e.effect.toList = [e].filterMap Event.effect := by
    cases hf : e.effect <;> simp [hf]
  have hcontent : applyBatch s.db.mRocksDB (s.db.mWriteBatch ++ e.effect.toList) =
      replay s.content [e] := by
    rw [applyBatch_append, heffect, applyBatch_effects]
    rfl
  rw [Event.apply_rocksDB]
  exact
    { h with
      attempt := by
        obtain ⟨done, hdone⟩ := h.attempt
        refine ⟨done ++ [e], ?_⟩
        rw [append_assoc]
        rwa [hleft] at hdone
      recovers := by
        have hsame := h.recovers
        rw [remaining, hleft, cons_append, ← singleton_append, replay_append] at hsame
        simp only [Loop.content, hcontent]
        exact hsame }

theorem retry (h : Inv log s) {b : List Event × ℕ} (happlying : s.applying = some b) :
    Inv log { s with left := b.1 } where
  __ := h
  attempt := ⟨[], by rw [happlying]; rfl⟩
  recovers := by
    obtain ⟨done, hdone, hevents⟩ := h.logEvents_applied
    rw [happlying] at hdone
    have hstart : remaining log { s with left := b.1 } = done ++ remaining log s := by
      simp only [remaining, ← append_assoc, ← hdone]
      rfl
    rw [hstart, ← hevents]
    exact h.replay_applied

theorem finish (h : Inv log s) {b : List Event × ℕ} (happlying : s.applying = some b)
    (hleft : s.left = []) : Inv log { s with appliedIndex := b.2, applying := none } := by
  have hpending := h.pending
  rw [happlying] at hpending
  obtain ⟨hlt, hle, -, hrest⟩ := bundlesBetween_eq_cons hpending.symm
  exact
    { h with
      applied_le := hle
      milestone_le := h.milestone_le.trans hlt.le
      pending := hrest.symm
      attempt := ⟨[], hleft.symm⟩ }

theorem step (h : Inv log s) {a : Act} (ht : step log s a = some t) : Inv log t := by
  cases a with
  | load size =>
    simp only [Recovery.step] at ht
    split_ifs at ht with hc
    cases ht
    exact h.load hc.1 hc.2.1 hc.2.2
  | loadNextBundle =>
    simp only [Recovery.step] at ht
    split at ht
    · cases ht
      exact h.loadNextBundle ‹_› ‹_›
    · cases ht
  | apply =>
    simp only [Recovery.step] at ht
    split at ht
    · cases ht
      exact h.apply ‹_›
    · cases ht
  | retry =>
    obtain ⟨b, hb, rfl⟩ := Option.map_eq_some_iff.mp ht
    exact h.retry hb
  | finish =>
    simp only [Recovery.step] at ht
    split at ht
    · cases ht
      exact h.finish ‹_› ‹_›
    · cases ht
  | commit =>
    simp only [Recovery.step] at ht
    split_ifs at ht
    cases ht
    exact { h with milestone_le := le_rfl, survives := h.replay_applied }
  | flush =>
    cases ht
    exact { h with survives := h.replay_milestone }
  | crash =>
    cases ht
    exact
      { loaded_le := h.milestone_le.trans (h.applied_le.trans h.loaded_le)
        applied_le := le_rfl
        milestone_le := le_rfl
        pending := (bundlesBetween_self log _).symm
        attempt := ⟨[], rfl⟩
        recovers := h.survives
        survives := h.survives }

end Inv

theorem inv_init (log : List LogEntry) : Inv log {} where
  loaded_le := Nat.zero_le _
  applied_le := le_rfl
  milestone_le := le_rfl
  pending := (bundlesBetween_self log 0).symm
  attempt := ⟨[], rfl⟩
  recovers := by
    rw [recordsAt, take_length]
    rfl
  survives := by
    rw [recordsAt, take_length]
    rfl

/-- The loop has gone through the whole log. -/
structure AtEnd (log : List LogEntry) (s : Loop) : Prop where
  idle : s.applying = none
  cached : s.mCachedBundles = []
  loaded : s.mLoadedIndex = log.length

theorem Inv.content_eq {s : Loop} (h : Inv log s) (hend : AtEnd log s) :
    s.content = recordsAt log log.length := by
  have hnil : remaining log s = [] := by
    rw [remaining, h.left_eq_nil hend.idle, hend.cached, hend.loaded, drop_length]
    rfl
  have hrecovers := h.recovers
  rwa [hnil] at hrecovers

/-- One bundle after the other is applied without a failure. -/
def applyBundles : List (List Event × ℕ) → List Act
  | [] => []
  | b :: rest => .loadNextBundle :: (List.replicate b.1.length .apply ++ .finish :: applyBundles rest)

theorem exec_apply (s : Loop) : exec (step log) s (List.replicate s.left.length .apply) =
    some { s with db := Event.applyAll s.db s.left, left := [] } := by
  obtain ⟨db, mLastMilestone, appliedIndex, mLoadedIndex, mAppliedIndex, mCachedBundles, applying,
    left⟩ := s
  induction left generalizing db with
  | nil => rfl
  | cons e left ih =>
    rw [length_cons, replicate_succ, exec]
    exact ih (e.apply db)

theorem exec_applyBundles (log : List LogEntry) {s : Loop} (hidle : s.applying = none) (hleft : s.left = []) :
    ∃ db applied, exec (step log) s (applyBundles s.mCachedBundles) =
      some { s with
        db := db
        appliedIndex := (s.mCachedBundles.map Prod.snd).getLastD s.appliedIndex
        mAppliedIndex := applied
        mCachedBundles := [] } := by
  obtain ⟨db, mLastMilestone, appliedIndex, mLoadedIndex, mAppliedIndex, mCachedBundles, applying,
    left⟩ := s
  cases hidle
  cases hleft
  induction mCachedBundles generalizing db appliedIndex mAppliedIndex with
  | nil => exact ⟨db, mAppliedIndex, rfl⟩
  | cons b rest ih =>
    obtain ⟨db', applied, hrest⟩ := ih (Event.applyAll db b.1) b.2 (max mAppliedIndex b.2)
    refine ⟨db', applied, ?_⟩
    rw [applyBundles, exec]
    change exec (step log) ⟨db, mLastMilestone, appliedIndex, mLoadedIndex, max mAppliedIndex b.2, rest,
      some b, b.1⟩ _ = _
    rw [exec_append, exec_apply, Option.bind_some, map_cons, getLastD_cons]
    exact hrest

/-- The new process after it has loaded the rest of the log. -/
def reload (log : List LogEntry) (db : RocksDBKVStore) : Loop :=
  { recoverSelf db with
    mLoadedIndex := log.length
    mCachedBundles := bundlesBetween log db.mMilestone log.length }

theorem step_load_recoverSelf {db : RocksDBKVStore} (h : db.mMilestone ≤ log.length) :
    step log (recoverSelf db) (.load (log.length - db.mMilestone)) = some (reload log db) := by
  have hlen : db.mMilestone + (log.length - db.mMilestone) = log.length := by omega
  simp [step, recoverSelf, reload, hlen]

theorem step_commit {s : Loop} (hidle : s.applying = none) (hlt : s.mLastMilestone < s.appliedIndex) :
    step log s .commit =
      some { s with db := s.db.commit s.appliedIndex, mLastMilestone := s.appliedIndex } :=
  if_pos ⟨hidle, hlt⟩

theorem crash_not_mem_applyBundles (bs : List (List Event × ℕ)) : Act.crash ∉ applyBundles bs := by
  induction bs with
  | nil => exact not_mem_nil
  | cons b rest ih =>
    intro hmem
    rcases mem_cons.mp hmem with hcrash | hmem
    · cases hcrash
    rcases mem_append.mp hmem with hmem | hmem
    · cases eq_of_mem_replicate hmem
    rcases mem_cons.mp hmem with hcrash | hmem
    · cases hcrash
    · exact ih hmem

theorem lt_getLastD_bundlesBetween {m n d : ℕ} (h : bundlesBetween log m n ≠ []) :
    m < ((bundlesBetween log m n).map Prod.snd).getLastD d := by
  obtain ⟨init, b, hb⟩ := (eq_nil_or_concat _).resolve_left h
  have hmem : b ∈ bundlesBetween log m n := by simp [hb]
  simpa [hb] using (mem_bundlesBetween.mp hmem).1

theorem exec_reload (log : List LogEntry) (db : RocksDBKVStore) :
    ∃ rest t, .crash ∉ rest ∧ exec (step log) (reload log db) rest = some t ∧ AtEnd log t ∧
      t.db.mWriteBatch = [] := by
  by_cases hnil : bundlesBetween log db.mMilestone log.length = []
  · exact ⟨[], reload log db, not_mem_nil, rfl, ⟨rfl, hnil, rfl⟩, rfl⟩
  · obtain ⟨db', applied, hbundles⟩ :=
      exec_applyBundles log (show (reload log db).applying = none from rfl) rfl
    have hlt : db.mMilestone <
        ((bundlesBetween log db.mMilestone log.length).map Prod.snd).getLastD db.mMilestone :=
      lt_getLastD_bundlesBetween hnil
    refine ⟨_, _, ?_, exec_snoc hbundles (step_commit rfl hlt), ⟨rfl, rfl, rfl⟩, rfl⟩
    simp [crash_not_mem_applyBundles]

theorem Inv.exists_recovery {s : Loop} (h : Inv log s) :
    ∃ rest t, .crash ∉ rest ∧ exec (Recovery.step log) s (.crash :: rest) = some t ∧ AtEnd log t ∧
      t.db.mWriteBatch = [] := by
  have hload := step_load_recoverSelf (h.milestone_le.trans (h.applied_le.trans h.loaded_le))
  obtain ⟨rest, t, hcrash, hrun, hend⟩ := exec_reload log s.db
  refine ⟨.load (log.length - s.db.mMilestone) :: rest, t, by simp [hcrash], ?_, hend⟩
  change (Recovery.step log (recoverSelf s.db) _).bind _ = _
  rw [hload]
  exact hrun

/-- Whatever the loop has done, a restart from the stored milestone leads to the end of the log, and
there RocksDB holds what the log leaves on an empty store. -/
theorem recovers_log (log : List LogEntry) {acts : List Act} {s : Loop}
    (hs : exec (step log) {} acts = some s) :
    (∃ rest t, .crash ∉ rest ∧ exec (step log) s (.crash :: rest) = some t ∧ AtEnd log t ∧
        t.db.mWriteBatch = []) ∧
      ∀ rest t, exec (step log) s (.crash :: rest) = some t → AtEnd log t →
        t.content = recordsAt log log.length ∧
          (t.db.mWriteBatch = [] → t.db.mRocksDB = recordsAt log log.length) := by
  have hinv : Inv log s := exec_invariant_of_step (fun _ _ _ h ht => h.step ht) (inv_init log) hs
  refine ⟨hinv.exists_recovery, fun rest t ht hend => ?_⟩
  have hcontent := (exec_invariant_of_step (fun _ _ _ h hu => h.step hu) hinv ht).content_eq hend
  refine ⟨hcontent, fun hbatch => ?_⟩
  rw [Loop.content, hbatch] at hcontent
  exact hcontent

/-- A put and a delete with a noop between them. The put is flushed without a milestone, and the
process crashes in the middle of a second attempt. -/
def flushedAhead : List Act :=
  [.load 3, .loadNextBundle, .apply, .flush, .retry, .apply, .crash]

def putThenDelete : List LogEntry :=
  [⟨1, some [.write { mKey := "k", mValue := "v", mVersion := 1 }]⟩, ⟨2, none⟩,
    ⟨2, some [.delete ⟨"k", "v", 1, 2⟩]⟩]

theorem flushedAhead_recovers : ∃ s, exec (step putThenDelete) {} flushedAhead = some s ∧
    s.db.mRocksDB "k" ≠ none ∧ s.db.mMilestone = 0 ∧
    ∀ rest t, exec (step putThenDelete) s (.crash :: rest) = some t → AtEnd putThenDelete t →
      t.content = recordsAt putThenDelete 3 :=
  ⟨_, rfl, by decide, rfl, fun rest t ht hend =>
    ((recovers_log putThenDelete (show exec (step putThenDelete) {} flushedAhead = some _ from rfl)).2
      rest t ht hend).1⟩

end Goblin.Engine.Recovery
