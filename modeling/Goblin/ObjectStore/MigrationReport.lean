import Goblin.Lib.Lookup
import Goblin.ObjectStore.Migration

/-! When a migration reports its success: the task sets of the shards against the tasks themselves. -/
namespace Goblin.ObjectStore.Migration

open Model Lib Store List Function

/-- The shards whose scan set holds the task. -/
def ScanTask.Listed (t : ScanTask) (shardId : ShardIdType) : Prop :=
  match t.pc with
  | .entering rest => shardId ∈ t.mShardIds ∧ shardId ∉ rest
  | .scanning => shardId ∈ t.mShardIds
  | .handing _ _ => shardId ∈ t.mShardIds
  | .marking rest => shardId ∈ rest

/-- The shards that a loop of the task has yet to visit. -/
def ScanTask.rest (t : ScanTask) : List ShardIdType :=
  match t.pc with
  | .entering rest => rest
  | .scanning => t.mShardIds
  | .handing _ _ => t.mShardIds
  | .marking rest => rest

/-- The shards that the task has yet to mark. -/
def ExportTask.marks (t : ExportTask) : List ShardIdType :=
  match t.pc with
  | .entering _ => t.mShardIds
  | .running => t.mShardIds
  | .rescanning _ => t.mShardIds
  | .marking rest => rest
  | .checking rest _ _ => rest

def ExportTask.Listed (t : ExportTask) (shardId : ShardIdType) : Prop :=
  match t.pc with
  | .entering rest => shardId ∈ t.mShardIds ∧ shardId ∉ rest
  | _ => shardId ∈ t.marks

def ExportTask.rest (t : ExportTask) : List ShardIdType :=
  match t.pc with
  | .entering rest => rest
  | _ => t.marks

namespace State

/-- `startMigration` has handed out all scan tasks. -/
def Started (s : State) : Prop := s.groups = [] ∧ s.starting = none

/-- How often `SUCCEEDED` has been reported. -/
def successes (s : State) : ℕ := s.reports.countP (·.overallStatus = .SUCCEEDED)

/-- No task has anything left to do. -/
structure Finished (s : State) : Prop where
  started : s.Started
  scans : ∀ id t, s.scanOf id = some t → t.pc = .marking []
  exports : ∀ id t, s.exportOf id = some t → t.pc = .marking []

end State

/-- Export tasks mark no shard before all scan tasks are handed out, scans return an iterator, and no deletion
fails. -/
def Orderly (s : State) : Act → Prop
  | .scanned _ iterator => iterator ≠ none
  | .deleted _ failed => failed = false
  | .markExport _ => s.Started
  | _ => True

/-- The last mark of a scan task finds an export task that has yet to mark a shard. -/
def Prompt (s : State) : Act → Prop
  | .markScan id => ∀ t shardId, s.scanOf id = some t → t.pc = .marking [shardId] →
      ∃ exportId e, s.exportOf exportId = some e ∧ e.marks ≠ []
  | _ => True

/-- What has to hold of a step for the success to be reported as it should. -/
def Timely (s : State) (a : Act) : Prop := Orderly s a ∧ Prompt s a

/-! The sets of the shards follow the tasks. -/
section Tracks

variable {T : Type} (p : MigratingShardInfo → Finset TaskID) (info : ShardIdType → MigratingShardInfo)
  (tasks : TaskID → Option T) (L : T → ShardIdType → Prop)

/-- A shard's set holds the tasks that are listed for it. -/
def Tracks : Prop := ∀ shardId id, id ∈ p (info shardId) ↔ ∃ t, tasks id = some t ∧ L t shardId

variable {p info tasks L} {id : TaskID} {t t' : T} {shardId : ShardIdType} {i : MigratingShardInfo}

theorem Tracks.mem (h : Tracks p info tasks L) (ht : tasks id = some t) (k : ShardIdType) :
    id ∈ p (info k) ↔ L t k := by
  rw [h k id]
  simp [ht]

theorem Tracks.notMem (h : Tracks p info tasks L) (ht : tasks id = none) (k : ShardIdType) :
    id ∉ p (info k) := by
  rw [h k id]
  simp [ht]

theorem Tracks.change (h : Tracks p info tasks L) (hp : ∀ id' ≠ id, (id' ∈ p i ↔ id' ∈ p (info shardId)))
    (hL : ∀ k, L t' k ↔ id ∈ p (update info shardId i k)) :
    Tracks p (update info shardId i) (update tasks id (some t')) L := by
  intro k id'
  by_cases hid : id' = id
  · subst hid
    simp [hL]
  · rw [update_of_ne hid, ← h k id']
    by_cases hk : k = shardId
    · subst hk
      rw [update_self, hp id' hid]
    · rw [update_of_ne hk]

theorem Tracks.task (h : Tracks p info tasks L) (hL : ∀ k, L t' k ↔ id ∈ p (info k)) :
    Tracks p info (update tasks id (some t')) L := by
  intro k id'
  by_cases hid : id' = id
  · subst hid
    simp [hL]
  · rw [update_of_ne hid, h k id']

theorem Tracks.setInfo (h : Tracks p info tasks L) (hp : p i = p (info shardId)) :
    Tracks p (update info shardId i) tasks L := by
  intro k id'
  rw [← h k id']
  by_cases hk : k = shardId
  · subst hk
    rw [update_self, hp]
  · rw [update_of_ne hk]

theorem Tracks.insert (h : Tracks p info tasks L) (ht : tasks id = some t)
    (hp : p i = insert id (p (info shardId))) (hL : ∀ k, L t' k ↔ L t k ∨ k = shardId) :
    Tracks p (update info shardId i) (update tasks id (some t')) L := by
  refine h.change (fun id' hid => by simp [hp, hid]) fun k => ?_
  by_cases hk : k = shardId
  · simp [hk, hp, hL]
  · simp [hk, hL, h.mem ht]

theorem Tracks.erase (h : Tracks p info tasks L) (ht : tasks id = some t)
    (hp : p i = (p (info shardId)).erase id) (hL : ∀ k, L t' k ↔ L t k ∧ k ≠ shardId) :
    Tracks p (update info shardId i) (update tasks id (some t')) L := by
  refine h.change (fun id' hid => by simp [hp, hid]) fun k => ?_
  by_cases hk : k = shardId
  · simp [hk, hp, hL]
  · simp [hk, hL, h.mem ht]

end Tracks

/-- A task visits each of its shards once, in order. -/
structure Visits (shards ids rest : List ShardIdType) : Prop where
  nonempty : ids ≠ []
  nodup : ids.Nodup
  known : ids ⊆ shards
  suffix : rest <:+ ids

namespace Visits

variable {shards ids rest : List ShardIdType} {shardId : ShardIdType}

theorem all (h : Visits shards ids rest) : Visits shards ids ids :=
  ⟨h.nonempty, h.nodup, h.known, suffix_rfl⟩

theorem tail (h : Visits shards ids (shardId :: rest)) : Visits shards ids rest :=
  ⟨h.nonempty, h.nodup, h.known, (suffix_cons _ _).trans h.suffix⟩

theorem mem (h : Visits shards ids (shardId :: rest)) : shardId ∈ ids :=
  h.suffix.subset mem_cons_self

theorem notMem (h : Visits shards ids (shardId :: rest)) : shardId ∉ rest :=
  (nodup_cons.mp (h.nodup.sublist h.suffix.sublist)).1

end Visits

namespace State

variable (s : State)

/-- The success has still to come, and something is left that will bring it; or it has come. -/
def Owed : Prop :=
  (∃ id e, s.exportOf id = some e ∧ e.marks ≠ []) ∨ ¬ s.Started ∨
  (∃ id t, s.scanOf id = some t ∧ t.pc ≠ .marking []) ∨
  (∃ id ws ids event left, s.exportOf id = some ⟨ws, ids, .checking [] event left⟩ ∧ ∀ k, (s.info k).isDone) ∨
  0 < s.successes

/-- What holds after any number of orderly steps. -/
structure Inv : Prop where
  alive : s.crashed = false
  groups : ∀ g ∈ s.groups, Visits s.shards g.2 g.2
  scanVisits : ∀ id t, s.scanOf id = some t → Visits s.shards t.mShardIds t.rest
  exportVisits : ∀ id e, s.exportOf id = some e → Visits s.shards e.mShardIds e.rest
  scanFresh : ∀ id, s.mMaxTaskID ≤ id → s.scanOf id = none
  exportFresh : ∀ id, s.mMaxTaskID ≤ id → s.exportOf id = none
  scanSets : Tracks (·.mScanTasks) s.info s.scanOf ScanTask.Listed
  exportSets : Tracks (·.mExportTasks) s.info s.exportOf ExportTask.Listed
  /-- Only `startMigration` adds scan tasks. -/
  entering : ∀ id t rest, s.scanOf id = some t → t.pc = .entering rest → s.starting = some id
  noRescan : ∀ id e scanId, s.exportOf id = some e → e.pc ≠ .rescanning scanId
  handing : ∀ id t exportId iterator, s.scanOf id = some t → t.pc = .handing exportId iterator →
    iterator ≠ none ∧ ∃ e, s.exportOf exportId = some e ∧ e.mShardIds = t.mShardIds
  parent : ∀ exportId e rest, s.exportOf exportId = some e → e.pc = .entering rest →
    ∃ id t iterator, s.scanOf id = some t ∧ t.pc = .handing exportId iterator
  holder : ∀ id ws ids rest event left, s.exportOf id = some ⟨ws, ids, .checking rest event left⟩ →
    s.mMutex = some id
  /-- The shards that a check has passed are done, and stay so. -/
  checked : ∀ id ws ids rest event left, s.exportOf id = some ⟨ws, ids, .checking rest event left⟩ →
    s.Started ∧ ∀ k ∈ s.shards, k ∉ left → (s.info k).isDone
  reported : 0 < s.successes → s.Finished
  once : s.successes ≤ 1

end State

section Invariant

variable {s t : State}

theorem MigratingShardInfo.isDone_mark {i : MigratingShardInfo} (h : i.isDone) (id : TaskID) :
    (i.markScanTaskDone id).isDone ∧ (i.markExportTaskDone id).isDone := by
  obtain ⟨hscan, hexport⟩ := h
  simp [isDone, markScanTaskDone, markExportTaskDone, hscan, hexport]

theorem State.isDone_setInfo {f : MigratingShardInfo → MigratingShardInfo} {shardId k : ShardIdType}
    (hf : ∀ i, i.isDone → (f i).isDone) (hk : (s.info k).isDone) : ((s.setInfo shardId f).info k).isDone := by
  by_cases hks : k = shardId
  · subst hks
    simpa [State.setInfo] using hf _ hk
  · simpa [State.setInfo, hks] using hk

namespace State.Inv

variable {id : TaskID} {x : ScanTask} {e : ExportTask} {k : ShardIdType} {ws ews : WSName}

variable {ids rest left : List ShardIdType} {event : MigrationEvent} {specific : Bool} {shardId : ShardIdType}
  {iterator : Option Bool}

theorem not_scan_listed (h : s.Inv) (hdone : (s.info k).isDone) (hx : s.scanOf id = some x) :
    ¬ x.Listed k := by
  rw [← h.scanSets.mem hx k, hdone.1]
  exact Finset.notMem_empty id

theorem not_export_listed (h : s.Inv) (hdone : (s.info k).isDone) (he : s.exportOf id = some e) :
    ¬ e.Listed k := by
  rw [← h.exportSets.mem he k, hdone.2]
  exact Finset.notMem_empty id

theorem scan_finished (h : s.Inv) (hstarted : s.Started) (hdone : ∀ k ∈ s.shards, (s.info k).isDone)
    (hx : s.scanOf id = some x) : x.pc = .marking [] := by
  have hv := h.scanVisits id x hx
  obtain ⟨k, hk⟩ := exists_mem_of_ne_nil _ hv.nonempty
  have hnot : ¬ x.Listed k := h.not_scan_listed (hdone k (hv.known hk)) hx
  cases hpc : x.pc with
  | entering rest =>
    have hstarting := h.entering id x rest hx hpc
    rw [hstarted.2] at hstarting
    cases hstarting
  | scanning | handing exportId iterator => exact absurd hk (by simpa [ScanTask.Listed, hpc] using hnot)
  | marking rest =>
    cases rest with
    | nil => rfl
    | cons σ rest =>
      have hmem : σ ∈ x.mShardIds := by
        rw [ScanTask.rest, hpc] at hv
        exact hv.mem
      exact absurd (by simp [ScanTask.Listed, hpc]) (h.not_scan_listed (hdone σ (hv.known hmem)) hx)

theorem export_marks (h : s.Inv) (hstarted : s.Started) (hdone : ∀ k ∈ s.shards, (s.info k).isDone)
    (he : s.exportOf id = some e) : e.marks = [] := by
  have hpc : ∀ rest, e.pc ≠ .entering rest := by
    intro rest hpc
    obtain ⟨sid, x, iterator, hx, hxpc⟩ := h.parent id e rest he hpc
    rw [h.scan_finished hstarted hdone hx] at hxpc
    cases hxpc
  have hv := h.exportVisits id e he
  have hlisted (k : ShardIdType) : e.Listed k ↔ k ∈ e.marks := by
    unfold ExportTask.Listed
    split
    · exact absurd (by assumption) (hpc _)
    · rfl
  have hrest : e.rest = e.marks := by
    unfold ExportTask.rest
    split
    · exact absurd (by assumption) (hpc _)
    · rfl
  rw [hrest] at hv
  by_contra hne
  obtain ⟨k, hk⟩ := exists_mem_of_ne_nil _ hne
  exact h.not_export_listed (hdone k (hv.known (hv.suffix.subset hk))) he ((hlisted k).mpr hk)

theorem isDone_of_quiet (h : s.Inv) (hscans : ∀ id x, s.scanOf id = some x → x.pc = .marking [])
    (hexports : ∀ id e, s.exportOf id = some e → e.marks = []) (k : ShardIdType) : (s.info k).isDone := by
  refine ⟨Finset.eq_empty_of_forall_notMem fun id hid => ?_, Finset.eq_empty_of_forall_notMem fun id hid => ?_⟩
  · obtain ⟨x, hx, hL⟩ := (h.scanSets k id).mp hid
    rw [ScanTask.Listed, hscans id x hx] at hL
    cases hL
  · obtain ⟨e, he, hL⟩ := (h.exportSets k id).mp hid
    have hmarks := hexports id e he
    have hne := (h.exportVisits id e he).nonempty
    unfold ExportTask.Listed at hL
    split at hL
    · rename_i hpc
      rw [ExportTask.marks, hpc] at hmarks
      exact hne hmarks
    · rw [hmarks] at hL
      cases hL

theorem scanOf_update_of_some {x' : ScanTask} {id' : TaskID} (hid : s.scanOf id' = none)
    (hx : s.scanOf id = some x) : update s.scanOf id' (some x') id = some x := by
  have hne : id ≠ id' := by
    rintro rfl
    rw [hid] at hx
    cases hx
  rw [update_of_ne hne, hx]

/-- While `startMigration` hands out scan tasks there is no check and no success. -/
theorem absurd_checking (h : s.Inv) (hnot : ¬ s.Started)
    (he : s.exportOf id = some ⟨ws, ids, .checking rest event left⟩) {P : Prop} : P :=
  absurd (h.checked id ws ids rest event left he).1 hnot

theorem startNew (h : s.Inv) {groups : List (WSName × List ShardIdType)} (hstarting : s.starting = none)
    (hgroups : s.groups = (ws, ids) :: groups) :
    State.Inv { s.newScan ws ids false with groups := groups, starting := some s.mMaxTaskID } := by
  have hnot : ¬ s.Started := fun hs => by simp [hs.1] at hgroups
  have hfresh : s.scanOf s.mMaxTaskID = none := h.scanFresh _ le_rfl
  have hg : ∀ g ∈ (ws, ids) :: groups, Visits s.shards g.2 g.2 := hgroups ▸ h.groups
  exact {
    alive := h.alive
    groups := fun g hmem => hg g (mem_cons_of_mem _ hmem)
    scanVisits := forall_update h.scanVisits (hg (ws, ids) mem_cons_self)
    exportVisits := h.exportVisits
    scanFresh := fun id hid => by
      have hne : id ≠ s.mMaxTaskID := Nat.ne_of_gt hid
      exact (update_of_ne hne _ _).trans (h.scanFresh id (Nat.le_of_succ_le hid))
    exportFresh := fun id hid => h.exportFresh id (Nat.le_of_succ_le hid)
    scanSets := h.scanSets.task fun k => by
      simp only [ScanTask.Listed, and_not_self, false_iff]
      exact h.scanSets.notMem hfresh k
    exportSets := h.exportSets
    entering := by
      intro id x rest hx hpc
      obtain ⟨rfl, -⟩ | ⟨-, hx⟩ := of_update hx
      · rfl
      · have hentering := h.entering id x rest hx hpc
        rw [hstarting] at hentering
        cases hentering
    noRescan := h.noRescan
    handing := by
      intro id x exportId iterator hx hpc
      obtain ⟨-, rfl⟩ | ⟨-, hx⟩ := of_update hx
      · cases hpc
      · exact h.handing id x exportId iterator hx hpc
    parent := by
      intro exportId e rest he hpc
      obtain ⟨id, x, iterator, hx, hxpc⟩ := h.parent exportId e rest he hpc
      exact ⟨id, x, iterator, scanOf_update_of_some hfresh hx, hxpc⟩
    holder := h.holder
    checked := fun _ _ _ _ _ _ he => h.absurd_checking hnot he
    reported := fun hs => absurd (h.reported hs).started hnot
    once := h.once }

theorem moveScan (h : s.Inv) (hx : s.scanOf id = some x) {x' : ScanTask}
    {info : ShardIdType → MigratingShardInfo} {starting : Option TaskID}
    (hvisits : Visits s.shards x'.mShardIds x'.rest)
    (hold : ∀ exportId iterator, x.pc = .handing exportId iterator →
      ∀ e rest, s.exportOf exportId = some e → e.pc ≠ .entering rest)
    (hnew : ∀ exportId iterator, x'.pc ≠ .handing exportId iterator) (hbusy : x.pc ≠ .marking [])
    (hscan : Tracks (·.mScanTasks) info (update s.scanOf id (some x')) ScanTask.Listed)
    (hexport : Tracks (·.mExportTasks) info s.exportOf ExportTask.Listed)
    (hentering : ∀ i y rest, update s.scanOf id (some x') i = some y → y.pc = .entering rest →
      starting = some i)
    (hdone : s.Started → starting = none ∧ ∀ k, (s.info k).isDone → (info k).isDone) :
    State.Inv { s with
      info := info
      starting := starting
      scanOf := update s.scanOf id (some x') } :=
  { h with
    scanVisits := forall_update h.scanVisits hvisits
    scanFresh i hi := by
      have hne : i ≠ id := by
        rintro rfl
        rw [h.scanFresh i hi] at hx
        cases hx
      exact (update_of_ne hne _ _).trans (h.scanFresh i hi)
    scanSets := hscan
    exportSets := hexport
    entering := hentering
    handing i y exportId iterator hy hpc := by
      obtain ⟨-, rfl⟩ | ⟨-, hy⟩ := of_update hy
      · exact absurd hpc (hnew exportId iterator)
      · exact h.handing i y exportId iterator hy hpc
    parent exportId e rest he hpc := by
      obtain ⟨i, y, iterator, hy, hypc⟩ := h.parent exportId e rest he hpc
      have hne : i ≠ id := by
        rintro rfl
        rw [hx] at hy
        cases hy
        exact hold exportId iterator hypc e rest he hpc
      exact ⟨i, y, iterator, (update_of_ne hne _ _).trans hy, hypc⟩
    checked i ws ids rest event left he := by
      obtain ⟨hstarted, hpassed⟩ := h.checked i ws ids rest event left he
      obtain ⟨hstarting, hmono⟩ := hdone hstarted
      exact ⟨⟨hstarted.1, hstarting⟩, fun k hk hleft => hmono k (hpassed k hk hleft)⟩
    reported hs := absurd ((h.reported hs).scans id x hx) hbusy }

theorem startEnter (h : s.Inv) (hstarting : s.starting = some id)
    (hx : s.scanOf id = some ⟨ws, ids, specific, .entering (shardId :: rest)⟩) :
    State.Inv { (s.setInfo shardId (·.addScanTask id)).setScan id ⟨ws, ids, specific, .entering rest⟩ with
      starting := some id } := by
  have hv : Visits s.shards ids (shardId :: rest) := h.scanVisits id _ hx
  refine h.moveScan hx hv.tail (by simp) (by simp) (by simp) ?_ ?_ ?_ ?_
  · refine h.scanSets.insert hx rfl fun k => ?_
    simp only [ScanTask.Listed, mem_cons, not_or]
    by_cases hk : k = shardId
    · simp [hk, hv.mem, hv.notMem]
    · simp [hk]
  · exact h.exportSets.setInfo rfl
  · intro i y r hy hpc
    obtain ⟨rfl, -⟩ | ⟨-, hy⟩ := of_update hy
    · rfl
    · exact hstarting.symm.trans (h.entering i y r hy hpc)
  · intro hs
    rw [hs.2] at hstarting
    cases hstarting

theorem startSubmit (h : s.Inv) (hstarting : s.starting = some id)
    (hx : s.scanOf id = some ⟨ws, ids, specific, .entering []⟩) :
    State.Inv { s.setScan id ⟨ws, ids, specific, .scanning⟩ with starting := none } := by
  have hv : Visits s.shards ids [] := h.scanVisits id _ hx
  refine h.moveScan hx hv.all (by simp) (by simp) (by simp) ?_ h.exportSets ?_ ?_
  · refine h.scanSets.task fun k => ?_
    rw [h.scanSets.mem hx]
    simp [ScanTask.Listed]
  · intro i y r hy hpc
    obtain ⟨-, rfl⟩ | ⟨hne, hy⟩ := of_update hy
    · cases hpc
    · have hentering := h.entering i y r hy hpc
      rw [hstarting] at hentering
      exact absurd (Option.some.inj hentering).symm hne
  · intro hs
    rw [hs.2] at hstarting
    cases hstarting

theorem markScan (h : s.Inv) (hx : s.scanOf id = some ⟨ws, ids, specific, .marking (shardId :: rest)⟩) :
    State.Inv ((s.setInfo shardId (·.markScanTaskDone id)).setScan id ⟨ws, ids, specific, .marking rest⟩) := by
  have hv : Visits s.shards ids (shardId :: rest) := h.scanVisits id _ hx
  refine h.moveScan hx hv.tail (by simp) (by simp) (by simp) ?_ ?_ ?_ ?_
  · refine h.scanSets.erase hx rfl fun k => ?_
    simp only [ScanTask.Listed, mem_cons]
    by_cases hk : k = shardId
    · simp [hk, hv.notMem]
    · simp [hk]
  · exact h.exportSets.setInfo rfl
  · intro i y r hy hpc
    obtain ⟨-, rfl⟩ | ⟨-, hy⟩ := of_update hy
    · cases hpc
    · exact h.entering i y r hy hpc
  · exact fun hs => ⟨hs.2, fun k hk => isDone_setInfo (fun _ hi => (MigratingShardInfo.isDone_mark hi id).1) hk⟩

theorem moveExport (h : s.Inv) (he : s.exportOf id = some e) {e' : ExportTask}
    {info : ShardIdType → MigratingShardInfo} {mutex : Option TaskID} (hids : e'.mShardIds = e.mShardIds)
    (hvisits : Visits s.shards e'.mShardIds e'.rest) (hbusy : e.pc ≠ .marking [])
    (hscan : Tracks (·.mScanTasks) info s.scanOf ScanTask.Listed)
    (hexport : Tracks (·.mExportTasks) info (update s.exportOf id (some e')) ExportTask.Listed)
    (hrescan : ∀ scanId, e'.pc ≠ .rescanning scanId)
    (hentering : ∀ rest, e'.pc = .entering rest → ∃ rest', e.pc = .entering rest')
    (hmutex : ∀ i ws ids rest event left,
      update s.exportOf id (some e') i = some ⟨ws, ids, .checking rest event left⟩ → mutex = some i)
    (hpassed : ∀ rest event left, e'.pc = .checking rest event left →
      s.Started ∧ ∀ k ∈ s.shards, k ∉ left → (info k).isDone)
    (hdone : s.Started → ∀ k, (s.info k).isDone → (info k).isDone) :
    State.Inv { s with
      info := info
      exportOf := update s.exportOf id (some e')
      mMutex := mutex } :=
  { h with
    exportVisits := forall_update h.exportVisits hvisits
    exportFresh i hi := by
      have hne : i ≠ id := by
        rintro rfl
        rw [h.exportFresh i hi] at he
        cases he
      exact (update_of_ne hne _ _).trans (h.exportFresh i hi)
    scanSets := hscan
    exportSets := hexport
    noRescan i y scanId hy := by
      obtain ⟨-, rfl⟩ | ⟨-, hy⟩ := of_update hy
      · exact hrescan scanId
      · exact h.noRescan i y scanId hy
    handing i x exportId iterator hx hpc := by
      obtain ⟨hit, y, hy, hyids⟩ := h.handing i x exportId iterator hx hpc
      refine ⟨hit, ?_⟩
      by_cases hi : exportId = id
      · subst hi
        rw [he] at hy
        cases hy
        exact ⟨e', update_self .., hids.trans hyids⟩
      · exact ⟨y, (update_of_ne hi _ _).trans hy, hyids⟩
    parent i y rest hy hpc := by
      obtain ⟨rfl, rfl⟩ | ⟨-, hy⟩ := of_update hy
      · obtain ⟨rest', hrest'⟩ := hentering rest hpc
        exact h.parent i e rest' he hrest'
      · exact h.parent i y rest hy hpc
    holder := hmutex
    checked i ws ids rest event left hy := by
      obtain ⟨-, hpc⟩ | ⟨-, hy⟩ := of_update hy
      · exact hpassed rest event left (by rw [← hpc])
      · obtain ⟨hstarted, hpast⟩ := h.checked i ws ids rest event left hy
        exact ⟨hstarted, fun k hk hleft => hdone hstarted k (hpast k hk hleft)⟩
    reported hs := absurd ((h.reported hs).exports id e he) hbusy }

theorem holder_update (h : s.Inv) {e' : ExportTask} (hpc : ∀ rest event left, e'.pc ≠ .checking rest event left)
    (i : TaskID) (ws : WSName) (ids rest : List ShardIdType) (event : MigrationEvent) (left : List ShardIdType)
    (hi : update s.exportOf id (some e') i = some ⟨ws, ids, .checking rest event left⟩) :
    s.mMutex = some i := by
  obtain ⟨-, rfl⟩ | ⟨-, hi⟩ := of_update hi
  · exact absurd rfl (hpc rest event left)
  · exact h.holder i ws ids rest event left hi

theorem handAdd (h : s.Inv) {eids : List ShardIdType} {exportId : TaskID}
    (hx : s.scanOf id = some ⟨ws, ids, specific, .handing exportId iterator⟩)
    (he : s.exportOf exportId = some ⟨ews, eids, .entering (shardId :: rest)⟩) :
    State.Inv ((s.setInfo shardId (·.addExportTask exportId)).setExport exportId ⟨ews, eids, .entering rest⟩) := by
  have hv : Visits s.shards eids (shardId :: rest) := h.exportVisits exportId _ he
  obtain ⟨-, y, hy, hids⟩ := h.handing id _ exportId iterator hx rfl
  rw [he] at hy
  cases hy
  have hmem : shardId ∈ ids := by
    rw [← show eids = ids from hids]
    exact hv.mem
  have hbusy : ¬ (s.info shardId).isDone := fun hdone => h.not_scan_listed hdone hx hmem
  refine h.moveExport he rfl hv.tail (by simp) ?_ ?_ (by simp) ?_ (h.holder_update (by simp)) (by simp) ?_
  · exact h.scanSets.setInfo rfl
  · refine h.exportSets.insert he rfl fun k => ?_
    simp only [ExportTask.Listed, mem_cons, not_or]
    by_cases hk : k = shardId
    · simp [hk, hv.mem, hv.notMem]
    · simp [hk]
  · exact fun _ _ => ⟨_, rfl⟩
  · intro _ k hk
    have hne : k ≠ shardId := fun heq => hbusy (heq ▸ hk)
    simpa [State.setInfo, hne] using hk

theorem deleted (h : s.Inv) (he : s.exportOf id = some ⟨ws, ids, .running⟩) :
    State.Inv (s.setExport id ⟨ws, ids, .marking ids⟩) := by
  have hv : Visits s.shards ids ids := h.exportVisits id _ he
  refine h.moveExport he rfl hv (by simp) h.scanSets ?_ (by simp) (by simp) (h.holder_update (by simp))
    (by simp) (fun _ _ hk => hk)
  refine h.exportSets.task fun k => ?_
  rw [h.exportSets.mem he]
  rfl

theorem markExport (h : s.Inv) (event : MigrationEvent)
    (he : s.exportOf id = some ⟨ws, ids, .marking (shardId :: rest)⟩) (hmutex : s.mMutex = none)
    (hstarted : s.Started) : State.Inv { (s.setInfo shardId (·.markExportTaskDone id)).setExport id
      ⟨ws, ids, .checking rest event s.shards⟩ with mMutex := some id } := by
  have hv : Visits s.shards ids (shardId :: rest) := h.exportVisits id _ he
  refine h.moveExport he rfl hv.tail (by simp) ?_ ?_ (by simp) (by simp) ?_ ?_ ?_
  · exact h.scanSets.setInfo rfl
  · refine h.exportSets.erase he rfl fun k => ?_
    simp only [ExportTask.Listed, ExportTask.marks, mem_cons]
    by_cases hk : k = shardId
    · simp [hk, hv.notMem]
    · simp [hk]
  · intro i ws' ids' rest' event' left' hi
    obtain ⟨rfl, -⟩ | ⟨-, hi⟩ := of_update hi
    · rfl
    · have hheld := h.holder i ws' ids' rest' event' left' hi
      rw [hmutex] at hheld
      cases hheld
  · intro rest' event' left' hpc
    cases hpc
    exact ⟨hstarted, fun k hk hnot => absurd hk hnot⟩
  · exact fun _ k hk => isDone_setInfo (fun _ hi => (MigratingShardInfo.isDone_mark hi id).2) hk

theorem handSubmit (h : s.Inv) {eids : List ShardIdType} {exportId : TaskID} {pc : ScanPc}
    (hx : s.scanOf id = some ⟨ws, ids, specific, .handing exportId iterator⟩)
    (he : s.exportOf exportId = some ⟨ews, eids, .entering []⟩) (hpc : pc = .scanning ∨ pc = .marking ids) :
    State.Inv ((s.setExport exportId ⟨ews, eids, .running⟩).setScan id ⟨ws, ids, specific, pc⟩) := by
  have hexport : State.Inv (s.setExport exportId ⟨ews, eids, .running⟩) := by
    have hv : Visits s.shards eids [] := h.exportVisits exportId _ he
    refine h.moveExport he rfl hv.all (by simp) h.scanSets ?_ (by simp) (by simp)
      (h.holder_update (by simp)) (by simp) (fun _ _ hk => hk)
    refine h.exportSets.task fun k => ?_
    rw [h.exportSets.mem he]
    simp [ExportTask.Listed, ExportTask.marks]
  have hv : Visits s.shards ids ids := h.scanVisits id _ hx
  refine hexport.moveScan hx ?_ ?_ ?_ (by simp) ?_ hexport.exportSets ?_ (fun hs => ⟨hs.2, fun _ hk => hk⟩)
  · obtain rfl | rfl := hpc <;> exact hv
  · intro i it hi y rest hy hentering
    cases hi
    obtain ⟨-, rfl⟩ | ⟨hne, -⟩ := of_update hy
    · cases hentering
    · exact hne rfl
  · obtain rfl | rfl := hpc <;> simp
  · refine hexport.scanSets.task fun k => ?_
    rw [hexport.scanSets.mem hx]
    obtain rfl | rfl := hpc <;> rfl
  · intro i y rest hy hentering
    obtain ⟨-, rfl⟩ | ⟨-, hy⟩ := of_update hy
    · obtain rfl | rfl := hpc <;> cases hentering
    · exact h.entering i y rest hy hentering

theorem scanned (h : s.Inv) (hx : s.scanOf id = some ⟨ws, ids, specific, .scanning⟩) (hiterator : iterator ≠ none) :
    State.Inv ((s.newExport ws ids).setScan id ⟨ws, ids, specific, .handing s.mMaxTaskID iterator⟩) := by
  have hv : Visits s.shards ids ids := h.scanVisits id _ hx
  have hfresh : s.exportOf s.mMaxTaskID = none := h.exportFresh _ le_rfl
  have hlt : id < s.mMaxTaskID := by
    by_contra hge
    rw [h.scanFresh id (not_lt.mp hge)] at hx
    cases hx
  have hold : ∀ i e, s.exportOf i = some e →
      update s.exportOf s.mMaxTaskID (some ⟨ws, ids, .entering ids⟩) i = some e := by
    intro i e he
    have hne : i ≠ s.mMaxTaskID := by
      rintro rfl
      rw [hfresh] at he
      cases he
    rw [update_of_ne hne, he]
  exact {
    alive := h.alive
    groups := h.groups
    scanVisits := forall_update h.scanVisits hv
    exportVisits := forall_update h.exportVisits hv
    scanFresh := fun i hi => by
      have hne : i ≠ id := Nat.ne_of_gt (hlt.trans hi)
      exact (update_of_ne hne _ _).trans (h.scanFresh i (Nat.le_of_succ_le hi))
    exportFresh := fun i hi => by
      have hne : i ≠ s.mMaxTaskID := Nat.ne_of_gt hi
      exact (update_of_ne hne _ _).trans (h.exportFresh i (Nat.le_of_succ_le hi))
    scanSets := h.scanSets.task fun k => by
      rw [h.scanSets.mem hx]
      rfl
    exportSets := h.exportSets.task fun k => by
      simp only [ExportTask.Listed, and_not_self, false_iff]
      exact h.exportSets.notMem hfresh k
    entering := by
      intro i y rest hy hpc
      obtain ⟨-, rfl⟩ | ⟨-, hy⟩ := of_update hy
      · cases hpc
      · exact h.entering i y rest hy hpc
    noRescan := by
      intro i e scanId he
      obtain ⟨-, rfl⟩ | ⟨-, he⟩ := of_update he
      · simp
      · exact h.noRescan i e scanId he
    handing := by
      intro i y exportId it hy hpc
      obtain ⟨-, rfl⟩ | ⟨-, hy⟩ := of_update hy
      · cases hpc
        exact ⟨hiterator, _, update_self .., rfl⟩
      · obtain ⟨hit, e, he, hids⟩ := h.handing i y exportId it hy hpc
        exact ⟨hit, e, hold exportId e he, hids⟩
    parent := by
      intro i e rest he hpc
      obtain ⟨rfl, -⟩ | ⟨-, he⟩ := of_update he
      · exact ⟨id, _, iterator, update_self .., rfl⟩
      · obtain ⟨j, y, it, hy, hypc⟩ := h.parent i e rest he hpc
        have hne : j ≠ id := by
          rintro rfl
          rw [hx] at hy
          cases hy
          cases hypc
        exact ⟨j, y, it, (update_of_ne hne _ _).trans hy, hypc⟩
    holder := by
      intro i ws' ids' rest event left he
      obtain ⟨-, hpc⟩ | ⟨-, he⟩ := of_update he
      · cases hpc
      · exact h.holder i ws' ids' rest event left he
    checked := by
      intro i ws' ids' rest event left he
      obtain ⟨-, hpc⟩ | ⟨-, he⟩ := of_update he
      · cases hpc
      · exact h.checked i ws' ids' rest event left he
    reported := fun hs => by
      have hpc := (h.reported hs).scans id _ hx
      cases hpc
    once := h.once }

theorem checkPass (h : s.Inv) (he : s.exportOf id = some ⟨ws, ids, .checking rest event (shardId :: left)⟩)
    (hdone : (s.info shardId).isDone) : State.Inv (s.setExport id ⟨ws, ids, .checking rest event left⟩) := by
  have hv : Visits s.shards ids rest := h.exportVisits id _ he
  refine h.moveExport he rfl hv (by simp) h.scanSets ?_ (by simp) (by simp) ?_ ?_ (fun _ _ hk => hk)
  · refine h.exportSets.task fun k => ?_
    rw [h.exportSets.mem he]
    rfl
  · intro i ws' ids' rest' event' left' hi
    obtain ⟨rfl, -⟩ | ⟨-, hi⟩ := of_update hi
    · exact h.holder i _ _ _ _ _ he
    · exact h.holder i ws' ids' rest' event' left' hi
  · intro rest' event' left' hpc
    cases hpc
    obtain ⟨hstarted, hpast⟩ := h.checked id _ _ _ _ _ he
    refine ⟨hstarted, fun k hk hleft => ?_⟩
    by_cases hks : k = shardId
    · rwa [hks]
    · exact hpast k hk (by simp [hks, hleft])

theorem release (h : s.Inv) (he : s.exportOf id = some ⟨ws, ids, .checking rest event left⟩) :
    State.Inv { s.setExport id ⟨ws, ids, .marking rest⟩ with mMutex := none } := by
  have hv : Visits s.shards ids rest := h.exportVisits id _ he
  refine h.moveExport he rfl hv (by simp) h.scanSets ?_ (by simp) (by simp) ?_ (by simp) (fun _ _ hk => hk)
  · refine h.exportSets.task fun k => ?_
    rw [h.exportSets.mem he]
    rfl
  · intro i ws' ids' rest' event' left' hi
    obtain ⟨-, hpc⟩ | ⟨hne, hi⟩ := of_update hi
    · cases hpc
    · have hheld := (h.holder id _ _ _ _ _ he).symm.trans (h.holder i _ _ _ _ _ hi)
      exact absurd (Option.some.inj hheld).symm hne

theorem successes_report (s : State) (event : MigrationEvent) (overallStatus : OverallStatus) :
    (s.report event overallStatus).successes =
      s.successes + if overallStatus = .SUCCEEDED then 1 else 0 := by
  cases overallStatus <;> simp [State.successes, State.report]

theorem report (h : s.Inv) (hmutex : s.mMutex = none) {overallStatus : OverallStatus}
    (hsuccess : overallStatus = .SUCCEEDED → s.Finished ∧ s.successes = 0) :
    State.Inv (s.report event overallStatus) := by
  have hcount := successes_report s event overallStatus
  have hfinished : 0 < (s.report event overallStatus).successes → s.Finished := by
    intro hs
    cases overallStatus with
    | RUNNING => exact h.reported (by simpa [hcount] using hs)
    | SUCCEEDED => exact (hsuccess rfl).1
  exact {
    alive := h.alive
    groups := h.groups
    scanVisits := h.scanVisits
    exportVisits := h.exportVisits
    scanFresh := h.scanFresh
    exportFresh := h.exportFresh
    scanSets := h.scanSets
    exportSets := h.exportSets
    entering := h.entering
    noRescan := h.noRescan
    handing := h.handing
    parent := h.parent
    holder := fun i ws ids rest event' left hi => hmutex.symm.trans (h.holder i ws ids rest event' left hi)
    checked := h.checked
    reported := fun hs => ⟨(hfinished hs).started, (hfinished hs).scans, (hfinished hs).exports⟩
    once := by
      rw [hcount]
      cases overallStatus with
      | RUNNING => simpa using h.once
      | SUCCEEDED => simp [(hsuccess rfl).2] }

theorem successes_eq_zero (h : s.Inv) (hnot : ¬ s.Finished) : s.successes = 0 :=
  Nat.eq_zero_of_not_pos fun hpos => hnot (h.reported hpos)

/-- When a check has passed all shards, no task has anything left to do. -/
theorem finished_of_checked (h : s.Inv) (he : s.exportOf id = some ⟨ws, ids, .checking rest event []⟩) :
    State.Finished { s.setExport id ⟨ws, ids, .marking rest⟩ with mMutex := none } := by
  obtain ⟨hstarted, hpast⟩ := h.checked id _ _ _ _ _ he
  have hdone : ∀ k ∈ s.shards, (s.info k).isDone := fun k hk => hpast k hk not_mem_nil
  refine ⟨hstarted, fun i y hy => h.scan_finished hstarted hdone hy, fun i y hy => ?_⟩
  obtain ⟨-, rfl⟩ | ⟨hne, hy⟩ := of_update hy
  · have hrest : rest = [] := h.export_marks hstarted hdone he
    rw [hrest]
  · have hmarks := h.export_marks hstarted hdone hy
    have hnonempty := (h.exportVisits i y hy).nonempty
    obtain ⟨yws, yids, pc⟩ := y
    cases pc with
    | entering r | running => exact absurd hmarks hnonempty
    | rescanning sid => exact absurd rfl (h.noRescan i _ sid hy)
    | marking r => exact congrArg _ hmarks
    | checking r ev left =>
      have hheld := (h.holder id _ _ _ _ _ he).symm.trans (h.holder i _ _ _ _ _ hy)
      exact absurd (Option.some.inj hheld).symm hne

theorem checkSuccess (h : s.Inv) (he : s.exportOf id = some ⟨ws, ids, .checking rest event []⟩) :
    State.Inv ((s.setExport id ⟨ws, ids, .marking rest⟩).report event .SUCCEEDED) := by
  refine (h.release he).report rfl fun _ => ⟨h.finished_of_checked he, ?_⟩
  refine h.successes_eq_zero fun hfinished => ?_
  cases hfinished.exports id _ he

/-- A mark by an export task brings the success nearer: after the last one its check passes all shards. -/
theorem owed_markExport (h : t.Inv) (he : t.exportOf id = some ⟨ws, ids, .checking rest event left⟩) : t.Owed := by
  by_cases hexports : ∃ i e, t.exportOf i = some e ∧ e.marks ≠ []
  · exact .inl hexports
  by_cases hstarted : t.Started
  swap
  · exact .inr (.inl hstarted)
  by_cases hscans : ∃ i x, t.scanOf i = some x ∧ x.pc ≠ .marking []
  · exact .inr (.inr (.inl hscans))
  push Not at hexports hscans
  have hrest : rest = [] := hexports id _ he
  subst hrest
  exact .inr (.inr (.inr (.inl ⟨id, ws, ids, event, left, he, h.isDone_of_quiet hscans hexports⟩)))

end State.Inv

/-- The tasks that have something left to do are the same before and after a step of a check. -/
theorem State.Owed.check {id : TaskID} {ws : WSName} {ids rest left : List ShardIdType} {event : MigrationEvent}
    (h : s.Inv)
    (ho : s.Owed) (he : s.exportOf id = some ⟨ws, ids, .checking rest event left⟩) (e' : ExportTask)
    (hmarks : e'.marks = rest) (hexports : t.exportOf = update s.exportOf id (some e'))
    (hscans : t.scanOf = s.scanOf) (hstarted : t.Started ↔ s.Started)
    (hsuccesses : s.successes ≤ t.successes) (hlast : rest = [] → (∀ k, (s.info k).isDone) → t.Owed) :
    t.Owed := by
  obtain ⟨i, e, hi, hne⟩ | hnot | hscan | ⟨i, ws', ids', event', left', hi, hdone⟩ | hpos := ho
  · refine .inl ?_
    rw [hexports]
    by_cases hid : i = id
    · subst hid
      rw [he] at hi
      cases hi
      exact ⟨i, e', update_self .., hmarks ▸ hne⟩
    · exact ⟨i, e, (update_of_ne hid _ _).trans hi, hne⟩
  · exact .inr (.inl (hstarted.not.mpr hnot))
  · exact .inr (.inr (.inl (hscans ▸ hscan)))
  · have hheld := (h.holder id _ _ _ _ _ he).symm.trans (h.holder i _ _ _ _ _ hi)
    cases Option.some.inj hheld
    rw [he] at hi
    cases hi
    exact hlast rfl hdone
  · exact .inr (.inr (.inr (.inr (hpos.trans_le hsuccesses))))

theorem step_start (h : s.Inv) (hs : stepStart s = some t) : t.Inv ∧ t.Owed := by
  unfold stepStart at hs
  cases hstarting : s.starting with
  | none =>
    rw [hstarting] at hs
    cases hgroups : s.groups with
    | nil => simp [hgroups] at hs
    | cons g groups =>
      obtain ⟨ws, ids⟩ := g
      simp only [hgroups, Option.some.injEq] at hs
      subst hs
      exact ⟨h.startNew hstarting hgroups, .inr (.inl fun hst => by cases hst.2)⟩
  | some id =>
    simp only [hstarting, State.enterScan] at hs
    split at hs
    · rename_i ws ids specific shardId rest hx
      simp only [Option.map_some, Bool.false_eq_true, if_false, Option.some.injEq] at hs
      subst hs
      exact ⟨h.startEnter hstarting hx, .inr (.inl fun hst => by cases hst.2)⟩
    · rename_i ws ids specific hx
      simp only [Option.map_some, if_true, Option.some.injEq] at hs
      subst hs
      refine ⟨h.startSubmit hstarting hx, .inr (.inr (.inl ⟨id, _, update_self .., ?_⟩))⟩
      simp
    · cases hs

theorem step_scanned {id : TaskID} {iterator : Option Bool} (h : s.Inv)
    (hs : stepScanned s id iterator = some t) (hiterator : iterator ≠ none) : t.Inv ∧ t.Owed := by
  unfold stepScanned at hs
  split at hs
  · rename_i ws ids specific hx
    split_ifs at hs
    cases hs
    refine ⟨h.scanned hx hiterator, .inr (.inr (.inl ⟨id, _, update_self .., ?_⟩))⟩
    simp
  · cases hs

theorem step_hand {id : TaskID} (h : s.Inv) (hs : stepHand s id = some t) : t.Inv ∧ t.Owed := by
  unfold stepHand at hs
  split at hs
  · rename_i ws ids specific exportId iterator hx
    have hiterator := (h.handing id _ exportId iterator hx rfl).1
    split at hs
    · rename_i ews eids shardId rest he
      cases hs
      exact ⟨h.handAdd hx he, .inl ⟨exportId, _, update_self .., (h.exportVisits exportId _ he).nonempty⟩⟩
    · rename_i ews eids he
      have hne : eids ≠ [] := (h.exportVisits exportId _ he).nonempty
      cases iterator with
      | none => exact absurd rfl hiterator
      | some more =>
        cases more with
        | true =>
          cases hs
          exact ⟨h.handSubmit hx he (.inl rfl), .inl ⟨exportId, _, update_self .., hne⟩⟩
        | false =>
          cases hs
          exact ⟨h.handSubmit hx he (.inr rfl), .inl ⟨exportId, _, update_self .., hne⟩⟩
    · cases hs
  · cases hs

theorem step_markScan {id : TaskID} (h : s.Inv) (hs : stepMarkScan s id = some t) :
    t.Inv ∧ (Prompt s (.markScan id) → t.Owed) := by
  unfold stepMarkScan at hs
  split at hs
  · rename_i ws ids specific shardId rest hx
    cases hs
    refine ⟨h.markScan hx, fun hlast => ?_⟩
    cases rest with
    | nil => exact .inl (hlast _ shardId hx rfl)
    | cons k rest => exact .inr (.inr (.inl ⟨id, _, update_self .., by simp⟩))
  · cases hs

theorem step_deleted {id : TaskID} (h : s.Inv) (hs : stepDeleted s id false = some t) : t.Inv ∧ t.Owed := by
  unfold stepDeleted at hs
  split at hs
  · rename_i ws ids he
    cases hs
    exact ⟨h.deleted he, .inl ⟨id, _, update_self .., (h.exportVisits id _ he).nonempty⟩⟩
  · cases hs

theorem step_markExport {id : TaskID} (h : s.Inv) (hs : stepMarkExport s id = some t)
    (hstarted : s.Started) : t.Inv ∧ t.Owed := by
  unfold stepMarkExport at hs
  split at hs
  · rename_i ws ids shardId rest he
    split_ifs at hs with hmutex
    have hinv : t.Inv := by
      cases hs
      exact h.markExport _ he hmutex hstarted
    refine ⟨hinv, ?_⟩
    cases hs
    exact hinv.owed_markExport (update_self ..)
  · cases hs

theorem step_check {id : TaskID} (h : s.Inv) (hs : stepCheck s id = some t) :
    t.Inv ∧ (s.Owed → t.Owed) := by
  unfold stepCheck at hs
  split at hs
  · rename_i ws ids rest event shardId left he
    split_ifs at hs with hdone
    · cases hs
      refine ⟨h.checkPass he hdone, fun ho => ?_⟩
      refine ho.check h he _ rfl rfl rfl Iff.rfl le_rfl fun hrest hall => ?_
      subst hrest
      exact .inr (.inr (.inr (.inl ⟨id, ws, ids, event, left, update_self .., hall⟩)))
    · cases hs
      refine ⟨(h.release he).report rfl (by simp), fun ho => ?_⟩
      refine ho.check h he ⟨ws, ids, .marking rest⟩ rfl rfl rfl Iff.rfl ?_ fun _ hall => ?_
      · rw [State.Inv.successes_report]
        exact Nat.le_add_right _ _
      · exact absurd (hall shardId) hdone
  · rename_i ws ids rest event he
    cases hs
    refine ⟨h.checkSuccess he, fun _ => .inr (.inr (.inr (.inr ?_)))⟩
    rw [State.Inv.successes_report]
    exact Nat.succ_pos _
  · cases hs

/-- An orderly step keeps the invariant, and a prompt one keeps the success in sight. -/
theorem step_inv {a : Act} (h : s.Inv) (hs : step s a = some t) (ha : Orderly s a) :
    t.Inv ∧ (s.Owed → Prompt s a → t.Owed) := by
  unfold step at hs
  rw [if_neg (by simp [h.alive])] at hs
  cases a with
  | start => exact (step_start h hs).imp_right fun ho _ _ => ho
  | scanned id iterator => exact (step_scanned h hs ha).imp_right fun ho _ _ => ho
  | hand id => exact (step_hand h hs).imp_right fun ho _ _ => ho
  | markScan id => exact (step_markScan h hs).imp_right fun ho _ => ho
  | deleted id failed =>
    cases (ha : failed = false)
    exact (step_deleted h hs).imp_right fun ho _ _ => ho
  | rescan id =>
    dsimp only [stepRescan] at hs
    split at hs
    · rename_i ws ids scanId he
      exact absurd rfl (h.noRescan id _ scanId he)
    · cases hs
  | markExport id => exact (step_markExport h hs ha).imp_right fun ho _ _ => ho
  | check id => exact (step_check h hs).imp_right fun ho hs _ => ho hs

end Invariant

/-! The working sets that `startMigration` hands out. -/
section Start

variable {name : WSName} {id k : ShardIdType} {m : List (WSName × List ShardIdType)}

/-- Every shard is in the group of its own working set, and in no group twice. -/
structure Grouped (ids : List ShardIdType) (m : List (WSName × List ShardIdType)) : Prop where
  nonempty : ∀ g ∈ m, g.2 ≠ []
  perm : (m.flatMap Prod.snd).Perm ids

theorem nonempty_pushShard (h : ∀ g ∈ m, g.2 ≠ []) : ∀ g ∈ pushShard name id m, g.2 ≠ [] := by
  induction m with
  | nil => simp [pushShard]
  | cons x m ih =>
    obtain ⟨n, ids⟩ := x
    have hrest : ∀ g ∈ m, g.2 ≠ [] := fun g hg => h g (mem_cons_of_mem _ hg)
    have hids : ids ≠ [] := h (n, ids) mem_cons_self
    unfold pushShard
    split_ifs
    · simpa using hrest
    · simpa [hids] using hrest
    · simpa [hids] using ih hrest

theorem perm_pushShard (name : WSName) (id : ShardIdType) (m : List (WSName × List ShardIdType)) :
    ((pushShard name id m).flatMap Prod.snd).Perm (id :: m.flatMap Prod.snd) := by
  induction m with
  | nil => simp [pushShard]
  | cons x m ih =>
    obtain ⟨n, ids⟩ := x
    unfold pushShard
    split_ifs
    · simp
    · simp
    · have := (ih.append_left ids).trans perm_middle
      simpa using this

theorem grouped_shardsPerWS (ids : List ShardIdType) : Grouped ids (shardsPerWS ids) := by
  have hloop : ∀ (rest done : List ShardIdType) (m : List (WSName × List ShardIdType)), Grouped done m →
      Grouped (done ++ rest) (rest.foldl (fun m id =>
        pushShard (shardIdToColumnFamily kWorkingSetNamePrefix id kWorkingSetFactor) id m) m) := by
    intro rest
    induction rest with
    | nil =>
      intro done m hm
      simpa using hm
    | cons id rest ih =>
      intro done m hm
      have hpush (name : WSName) : Grouped (done ++ [id]) (pushShard name id m) :=
        ⟨nonempty_pushShard hm.nonempty, (perm_pushShard name id m).trans
          ((hm.perm.cons id).trans (perm_append_singleton id done).symm)⟩
      simpa using ih (done ++ [id]) _ (hpush _)
  simpa [shardsPerWS] using hloop ids [] [] ⟨by simp, by simp⟩

theorem startMigration_inv (taskId : ℕ) {ids : List ShardIdType} (hnodup : ids.Nodup) :
    (startMigration taskId ids).Inv := by
  have hgrouped := grouped_shardsPerWS ids
  have hgroups : ∀ g ∈ (startMigration taskId ids).groups,
      Visits (startMigration taskId ids).shards g.2 g.2 := by
    intro x hx
    have hsub : x.2.Sublist ((shardsPerWS ids).flatMap Prod.snd) := by
      rw [flatMap_def]
      exact sublist_flatten_of_mem (mem_map.mpr ⟨x, hx, rfl⟩)
    refine ⟨hgrouped.nonempty x hx, (hgrouped.perm.nodup_iff.mpr hnodup).sublist hsub, ?_, suffix_rfl⟩
    intro k hk
    have hmem : k ∈ ids := hgrouped.perm.subset (hsub.subset hk)
    simpa [startMigration] using hmem
  exact {
    alive := rfl
    groups := hgroups
    scanVisits := fun _ _ h => by cases h
    exportVisits := fun _ _ h => by cases h
    scanFresh := fun _ _ => rfl
    exportFresh := fun _ _ => rfl
    scanSets := fun _ _ => by simp [startMigration]
    exportSets := fun _ _ => by simp [startMigration]
    entering := fun _ _ _ h => by cases h
    noRescan := fun _ _ _ h => by cases h
    handing := fun _ _ _ _ h => by cases h
    parent := fun _ _ _ h => by cases h
    holder := fun _ _ _ _ _ _ h => by cases h
    checked := fun _ _ _ _ _ _ h => by cases h
    reported := fun h => by cases h
    once := Nat.zero_le 1 }

theorem startMigration_owed (taskId : ℕ) {ids : List ShardIdType} (hne : ids ≠ []) :
    (startMigration taskId ids).Owed := by
  refine .inr (.inl fun hstarted => hne ?_)
  have hnil : shardsPerWS ids = [] := by simpa [startMigration] using hstarted.1
  have hperm := (grouped_shardsPerWS ids).perm
  rw [hnil] at hperm
  exact hperm.nil_eq.symm

end Start

/-- In a timely run the success is reported at most once, at a time when no task has anything left to do and the
sets of all shards are empty, and it has been reported once all tasks have finished. -/
theorem migration_success_reported (taskId : ℕ) {ids : List ShardIdType} (hne : ids ≠ []) (hnodup : ids.Nodup)
    {as : List Act} {s : State} (hrun : exec step (startMigration taskId ids) as = some s)
    (htimely : Meets step Timely (startMigration taskId ids) as) :
    s.crashed = false ∧ s.successes ≤ 1 ∧
      (0 < s.successes → s.Finished ∧ ∀ k, (s.info k).isDone) ∧ (s.Finished → s.successes = 1) := by
  have hinv : s.Inv ∧ s.Owed := by
    refine exec_invariant (I := fun s => s.Inv ∧ s.Owed) ?_
      ⟨startMigration_inv taskId hnodup, startMigration_owed taskId hne⟩ htimely hrun
    intro s a t hs ha ht
    obtain ⟨hinv, howed⟩ := step_inv hs.1 ht ha.1
    exact ⟨hinv, howed hs.2 ha.2⟩
  obtain ⟨h, howed⟩ := hinv
  refine ⟨h.alive, h.once, fun hpos => ⟨h.reported hpos, ?_⟩, fun hfinished => ?_⟩
  · obtain ⟨-, hscans, hexports⟩ := h.reported hpos
    refine h.isDone_of_quiet hscans fun id e he => ?_
    rw [ExportTask.marks, hexports id e he]
  · have hpos : 0 < s.successes := by
      obtain ⟨id, e, he, hmarks⟩ | hnot | ⟨id, x, hx, hpc⟩ | ⟨id, ws, ids', event, left, he, -⟩ | hpos := howed
      · rw [ExportTask.marks, hfinished.exports id e he] at hmarks
        exact absurd rfl hmarks
      · exact absurd hfinished.started hnot
      · exact absurd (hfinished.scans id x hx) hpc
      · cases hfinished.exports id _ he
      · exact hpos
    exact Nat.le_antisymm h.once hpos

/-- The steps of a working set with one shard and one batch: its scan task is handed out, scans and hands out
its export task. -/
def scanSteps (id : TaskID) : List Act :=
  [.start, .start, .start, .scanned id (some false), .hand id, .hand id]

/-- The export task marks the shard after its scan task has. -/
def exportLast (id : TaskID) : List Act :=
  scanSteps id ++ [.markScan id, .deleted (id + 1) false, .markExport (id + 1)]

theorem one_shard_reported :
    ∃ s, exec step (startMigration 7 [1]) (exportLast 0 ++ [.check 1, .check 1]) = some s ∧
      s.Finished ∧ s.successes = 1 := by
  have hrun : ∃ s, exec step (startMigration 7 [1]) (exportLast 0 ++ [.check 1, .check 1]) = some s ∧
      0 < s.successes := ⟨_, rfl, by decide⟩
  obtain ⟨s, hs, hpos⟩ := hrun
  have hmeets : Meets step Timely (startMigration 7 [1]) (exportLast 0 ++ [.check 1, .check 1]) := by
    have hfree : True ∧ True := ⟨trivial, trivial⟩
    refine meets_cons rfl hfree <| meets_cons rfl hfree <| meets_cons rfl hfree <|
      meets_cons rfl ⟨Option.some_ne_none _, trivial⟩ <| meets_cons rfl hfree <| meets_cons rfl hfree <|
      meets_cons rfl ⟨trivial, ?_⟩ <| meets_cons rfl ⟨rfl, trivial⟩ <| meets_cons rfl ⟨⟨rfl, rfl⟩, trivial⟩ <|
      meets_cons rfl hfree <| meets_cons rfl hfree trivial
    exact fun _ _ _ _ => ⟨1, _, rfl, cons_ne_nil _ _⟩
  obtain ⟨-, -, hreported, hfinished⟩ := migration_success_reported 7 (by simp) (by simp) hs hmeets
  exact ⟨s, hs, (hreported hpos).1, hfinished (hreported hpos).1⟩

/-- An export task that is faster than its scan task makes the last mark invisible: all tasks finish and
nothing is reported. A scan task that is handed out after the others have finished makes the success early, and
reported twice. A failed deletion ends in the null iterator of its rescan. -/
theorem success_lost_or_repeated :
    (∃ s, exec step (startMigration 7 [1])
        (scanSteps 0 ++ [.deleted 1 false, .markExport 1, .check 1, .markScan 0]) = some s ∧
      s.Started ∧ s.mMaxTaskID = 2 ∧ s.scanOf 0 = some ⟨"cf_for_app1", [1], false, .marking []⟩ ∧
      s.exportOf 1 = some ⟨"cf_for_app1", [1], .marking []⟩ ∧ s.successes = 0) ∧
    (∃ s, exec step (startMigration 7 [1, 2]) (exportLast 0 ++ [.check 1, .check 1, .check 1]) = some s ∧
      s.groups = [("cf_for_app2", [2])] ∧ s.successes = 1) ∧
    (∃ s, exec step (startMigration 7 [1, 2]) (exportLast 0 ++ [.check 1, .check 1, .check 1] ++
        exportLast 2 ++ [.check 3, .check 3, .check 3]) = some s ∧ s.successes = 2) ∧
    ∃ s, exec step (startMigration 7 [1]) (scanSteps 0 ++ [.deleted 1 true, .rescan 1, .rescan 1,
        .scanned 2 none, .hand 2, .hand 2]) = some s ∧ s.crashed = true := by
  refine ⟨⟨_, rfl, ⟨rfl, rfl⟩, rfl, rfl, rfl, rfl⟩, ⟨_, rfl, rfl, rfl⟩, ⟨_, rfl, rfl⟩, _, rfl, rfl⟩

end Goblin.ObjectStore.Migration
