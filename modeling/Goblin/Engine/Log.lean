import Goblin.Engine.Raft

/-! Facts about logs: the bundles between two indexes, and the events that they carry. -/
namespace Goblin.Engine

open Model Store List

variable {log log' : List LogEntry} {m n p index : ℕ}

/-- The bundles after the index `m` up to the index `n`. -/
def bundlesBetween (log : List LogEntry) (m n : ℕ) : List (List Event × ℕ) :=
  (List.range' (m + 1) (n - m)).filterMap (bundleAt log)

theorem Raft.loadBundles_eq (r : Raft) (m size : ℕ) :
    r.loadBundles (m + 1) size = bundlesBetween r.log m (m + size) := by
  simp [Raft.loadBundles, bundlesBetween]

@[simp] theorem entryAt_succ (log : List LogEntry) (n : ℕ) : entryAt log (n + 1) = log[n]? := rfl

theorem entryAt_eq_of_take (h : log.take n = log'.take n) (hi : index ≤ n) :
    entryAt log index = entryAt log' index := by
  unfold entryAt
  split_ifs with h0
  · rfl
  · have hlt : index - 1 < n := by omega
    rw [← getElem?_take_of_lt hlt, h, getElem?_take_of_lt hlt]

theorem bundlesBetween_congr (h : log.take n = log'.take n) :
    bundlesBetween log m n = bundlesBetween log' m n := by
  refine filterMap_congr fun index hindex => ?_
  have hle : index ≤ n := by
    have := mem_range'_1.mp hindex
    omega
  simp only [bundleAt, entryAt_eq_of_take h hle]

@[simp] theorem bundlesBetween_self (log : List LogEntry) (m : ℕ) : bundlesBetween log m m = [] := by
  simp [bundlesBetween]

theorem bundlesBetween_append (hmn : m ≤ n) (hnp : n ≤ p) :
    bundlesBetween log m n ++ bundlesBetween log n p = bundlesBetween log m p := by
  have hrange : List.range' (m + 1) (p - m) =
      List.range' (m + 1) (n - m) ++ List.range' (n + 1) (p - n) := by
    have hsplit := (range'_append_1 (s := m + 1) (m := n - m) (n := p - n)).symm
    rwa [show m + 1 + (n - m) = n + 1 by omega, show n - m + (p - n) = p - m by omega] at hsplit
  simp only [bundlesBetween, hrange, filterMap_append]

theorem bundlesBetween_succ (log : List LogEntry) (n : ℕ) :
    bundlesBetween log n (n + 1) = (bundleAt log (n + 1)).toList := by
  cases h : bundleAt log (n + 1) <;> simp [bundlesBetween, h]

theorem mem_bundlesBetween {b : List Event × ℕ} :
    b ∈ bundlesBetween log m n ↔ m < b.2 ∧ b.2 ≤ n ∧ bundleAt log b.2 = some b := by
  simp only [bundlesBetween, mem_filterMap, mem_range'_1]
  constructor
  · rintro ⟨index, hindex, hb⟩
    obtain rfl : b.2 = index := by
      obtain ⟨bundle, -, rfl⟩ := Option.map_eq_some_iff.mp hb
      rfl
    exact ⟨by omega, by omega, hb⟩
  · rintro ⟨hm, hn, hb⟩
    exact ⟨b.2, by omega, hb⟩

theorem bundlesBetween_eq_cons {b : List Event × ℕ} {rest : List (List Event × ℕ)}
    (h : bundlesBetween log m n = b :: rest) :
    m < b.2 ∧ b.2 ≤ n ∧ bundlesBetween log m b.2 = [b] ∧ bundlesBetween log b.2 n = rest := by
  obtain ⟨hm, hn, hb⟩ := mem_bundlesBetween.mp (h ▸ mem_cons_self)
  have hsplit : bundlesBetween log m b.2 ++ bundlesBetween log b.2 n = b :: rest :=
    (bundlesBetween_append hm.le hn).trans h
  -- the index of `b` is the last one of the left part, and nothing stands before `b`
  have hlast : bundlesBetween log m b.2 = bundlesBetween log m (b.2 - 1) ++ [b] := by
    have hstep := bundlesBetween_succ log (b.2 - 1)
    rw [show b.2 - 1 + 1 = b.2 by omega, hb] at hstep
    rw [← bundlesBetween_append (show m ≤ b.2 - 1 by omega) (show b.2 - 1 ≤ b.2 by omega), hstep]
    rfl
  cases hpre : bundlesBetween log m (b.2 - 1) with
  | nil =>
    rw [hpre] at hlast
    rw [hlast] at hsplit
    exact ⟨hm, hn, by simpa using hlast, (List.cons.inj hsplit).2⟩
  | cons c cs =>
    rw [hlast, hpre] at hsplit
    obtain rfl : c = b := (List.cons.inj hsplit).1
    have hc : c.2 ≤ c.2 - 1 := (mem_bundlesBetween.mp (hpre ▸ mem_cons_self)).2.1
    omega

theorem logEvents_append (log log' : List LogEntry) :
    logEvents (log ++ log') = logEvents log ++ logEvents log' :=
  flatMap_append

theorem logEvents_take_succ (log : List LogEntry) (n : ℕ) :
    logEvents (log.take (n + 1)) =
      logEvents (log.take n) ++ (bundlesBetween log n (n + 1)).flatMap Prod.fst := by
  rw [take_add_one, logEvents_append, bundlesBetween_succ]
  congr 1
  rw [bundleAt, entryAt_succ]
  cases log[n]? with
  | none => rfl
  | some entry => cases h : entry.bundle <;> simp [logEvents, h]

theorem logEvents_take (hmn : m ≤ n) :
    logEvents (log.take n) = logEvents (log.take m) ++ (bundlesBetween log m n).flatMap Prod.fst := by
  induction n, hmn using Nat.le_induction with
  | base => simp
  | succ n hmn ih =>
    rw [logEvents_take_succ, ih, ← bundlesBetween_append hmn (Nat.le_succ n), flatMap_append,
      append_assoc]

/-- The records after the first `n` entries of a log. -/
def recordsAt (log : List LogEntry) (n : ℕ) : RecordMap :=
  replay (fun _ => none) (logEvents (log.take n))

theorem recordsAt_of_between (hmn : m ≤ n) :
    recordsAt log n = replay (recordsAt log m) ((bundlesBetween log m n).flatMap Prod.fst) := by
  rw [recordsAt, logEvents_take hmn, replay_append]
  rfl

theorem recordsAt_congr (h : log.take n = log'.take n) : recordsAt log n = recordsAt log' n := by
  rw [recordsAt, h, recordsAt]

section Versions

theorem le_getLastD_of_pairwise {l : List ℕ} (h : l.Pairwise (· < ·)) {v : ℕ} (hv : v ∈ l) (d : ℕ) :
    v ≤ l.getLastD d := by
  rcases eq_nil_or_concat l with rfl | ⟨init, last, rfl⟩
  · cases hv
  · rw [concat_eq_append] at h hv ⊢
    rw [getLastD_concat]
    rcases mem_append.mp hv with hv | hv
    · exact ((pairwise_append.mp h).2.2 v hv last (mem_singleton_self _)).le
    · exact (mem_singleton.mp hv).le

theorem bundleVersions_append (log log' : List LogEntry) :
    bundleVersions (log ++ log') = bundleVersions log ++ bundleVersions log' :=
  filterMap_append

@[simp] theorem newestVersion_noop (log : List LogEntry) (term : ℕ) :
    newestVersion (log ++ [⟨term, none⟩]) = newestVersion log := by
  simp [newestVersion, bundleVersions]

@[simp] theorem newestVersion_bundle (log : List LogEntry) (term : ℕ) (bundle : List Event) :
    newestVersion (log ++ [⟨term, some bundle⟩]) = getVersionFromBundle bundle := by
  simp [newestVersion, bundleVersions]

theorem Ordered.le_newestVersion (h : Ordered log) {v : ℕ} (hv : v ∈ bundleVersions log) :
    v ≤ newestVersion log :=
  le_getLastD_of_pairwise (pairwise_cons.mp h.2).2 hv _

theorem Ordered.take (h : Ordered log) (n : ℕ) : Ordered (log.take n) := by
  refine ⟨h.1.sublist (take_sublist n log), h.2.sublist ?_⟩
  exact ((take_sublist n log).filterMap _).cons_cons _

theorem Ordered.newestVersion_take_le (h : Ordered log) (n : ℕ) :
    newestVersion (log.take n) ≤ newestVersion log := by
  rcases eq_nil_or_concat (bundleVersions (log.take n)) with hnil | ⟨init, last, hlast⟩
  · simp [newestVersion, hnil, kInvalidVersion]
  · have hv : newestVersion (log.take n) = last := by simp [newestVersion, hlast]
    rw [hv]
    refine h.le_newestVersion (((take_sublist n log).filterMap _).subset ?_)
    change last ∈ bundleVersions (log.take n)
    simp [hlast]

theorem Ordered.newestVersion_take_mono (h : Ordered log) (hmn : m ≤ n) :
    newestVersion (log.take m) ≤ newestVersion (log.take n) := by
  have := (h.take n).newestVersion_take_le m
  rwa [take_take, Nat.min_eq_left hmn] at this

theorem mem_bundleVersions_take {entry : LogEntry} {bundle : List Event}
    (hentry : entryAt log index = some entry) (hbundle : entry.bundle = some bundle) (hn : index ≤ n) :
    getVersionFromBundle bundle ∈ bundleVersions (log.take n) := by
  unfold entryAt at hentry
  split_ifs at hentry with h0
  have hmem : entry ∈ log.take n := by
    refine mem_of_getElem? (i := index - 1) ?_
    rwa [getElem?_take_of_lt (by omega)]
  exact mem_filterMap.mpr ⟨entry, hmem, by simp [hbundle]⟩

theorem Ordered.noop (h : Ordered log) {term : ℕ} (hterm : ∀ entry ∈ log, entry.term ≤ term) :
    Ordered (log ++ [⟨term, none⟩]) := by
  refine ⟨pairwise_append.mpr ⟨h.1, pairwise_singleton _ _, ?_⟩, ?_⟩
  · intro e he f hf
    rw [mem_singleton.mp hf]
    exact hterm e he
  · simpa [bundleVersions_append, bundleVersions] using h.2

theorem Ordered.bundle (h : Ordered log) {term : ℕ} (hterm : ∀ entry ∈ log, entry.term ≤ term)
    {bundle : List Event} (hv : newestVersion log < getVersionFromBundle bundle) :
    Ordered (log ++ [⟨term, some bundle⟩]) := by
  refine ⟨pairwise_append.mpr ⟨h.1, pairwise_singleton _ _, ?_⟩, ?_⟩
  · intro e he f hf
    rw [mem_singleton.mp hf]
    exact hterm e he
  · have hone : bundleVersions [⟨term, some bundle⟩] = [getVersionFromBundle bundle] := rfl
    rw [bundleVersions_append, hone, ← cons_append]
    refine pairwise_append.mpr ⟨h.2, pairwise_singleton _ _, ?_⟩
    intro v hmem w hw
    rw [mem_singleton.mp hw]
    rcases mem_cons.mp hmem with rfl | hmem
    · exact (Nat.zero_le _).trans_lt hv
    · exact (h.le_newestVersion hmem).trans_lt hv

theorem newestVersion_of_between (hnil : bundlesBetween log m n = []) (hmn : m ≤ n) :
    newestVersion (log.take n) = newestVersion (log.take m) := by
  induction n, hmn using Nat.le_induction with
  | base => rfl
  | succ n hmn ih =>
    rw [← bundlesBetween_append hmn (Nat.le_succ n)] at hnil
    obtain ⟨hleft, hright⟩ := append_eq_nil_iff.mp hnil
    rw [take_add_one, ← ih hleft]
    rw [bundlesBetween_succ, bundleAt, entryAt_succ] at hright
    cases hentry : log[n]? with
    | none => simp
    | some entry =>
      obtain ⟨term, bundle⟩ := entry
      cases bundle with
      | none => exact newestVersion_noop _ _
      | some bundle => simp [hentry] at hright

end Versions

end Goblin.Engine
