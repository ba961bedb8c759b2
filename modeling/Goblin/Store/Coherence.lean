import Goblin.Lib.Run
import Goblin.Store.CacheLine

/-! The leader's cache in front of a RocksDB that the apply loop brings up to date in log order. -/
namespace Goblin.Store

open Model Lib List Option

/-- Bundles reach the cache in version order. RocksDB holds the first `committed` of them, and its
write batch those between `committed` and `applied`. -/
structure LeaderCache where
  mem : InMemoryKVStore := {}
  db : RocksDBKVStore := {}
  finished : List (List Event) := []
  applied : ℕ := 0
  committed : ℕ := 0

namespace LeaderCache

inductive Act
  | finish (events : List Event)
  | apply
  | commit
  | evict (now : ℕ) (keys : List KeyType) (guardVersion : ℕ)

/-- A write without ttl or a delete that carries the version. -/
def plain (version : ℕ) : Event → Bool
  | .write e => !e.mEnableTTL && e.mVersion = version
  | .delete e => e.mVersion = version
  | _ => false

def lastVersion (bundles : List (List Event)) : ℕ :=
  bundles.getLast?.elim kInvalidVersion getVersionFromBundle

def step (s : LeaderCache) : Act → Option LeaderCache
  | .finish events =>
    if lastVersion s.finished < getVersionFromBundle events ∧
        events.all (plain (getVersionFromBundle events)) then
      some { s with mem := Event.applyAll s.mem events, finished := s.finished ++ [events] }
    else none
  | .apply =>
    s.finished[s.applied]?.map fun events =>
      { s with db := Event.applyAll s.db events, applied := s.applied + 1 }
  | .commit => some { s with db := s.db.commit s.applied, committed := s.applied }
  | .evict now keys guardVersion =>
    if guardVersion ≤ lastVersion (s.finished.take s.committed) then
      some { s with mem := s.mem.evictKV s.db now keys guardVersion }
    else none

/-- The records after the first `p` finished bundles. -/
def recordsAt (s : LeaderCache) (p : ℕ) : RecordMap :=
  replay (fun _ => none) (s.finished.take p).flatten

/-- Every read answers with the record that the finished events leave. -/
def Coherent (s : LeaderCache) : Prop :=
  ∀ key now out,
    match s.recordsAt s.finished.length key with
    | some r => (s.mem.readKV s.db now key out).1.1 = .ok ∧
        (s.mem.readKV s.db now key out).1.2.value = r.value ∧
        (s.mem.readKV s.db now key out).1.2.version = r.version
    | none => (s.mem.readKV s.db now key out).1.1 = .notFound (key ++ " not found")

/-- No bundle deletes, without writing it too, a key that only RocksDB holds. -/
def DeletesCached (s : LeaderCache) : Act → Prop
  | .finish events => ∀ key, s.mem.mData key = none → s.mem.mDeletedData key = none →
      (∃ e ∈ events, e.effect = some (key, none)) → (s.db.mRocksDB key).isSome →
        ∃ e ∈ events, ∃ r, e.effect = some (key, some r)
  | _ => True

def cellAt (s : LeaderCache) (key : KeyType) (p : ℕ) : Option Cell :=
  (s.recordsAt p key).map Record.cell

structure Inv (s : LeaderCache) : Prop where
  noError : ∀ key, s.db.mGetError key = none
  applied_le : s.applied ≤ s.finished.length
  committed_le : s.committed ≤ s.applied
  flushed : s.db.mRocksDB = s.recordsAt s.committed
  batched : applyBatch s.db.mRocksDB s.db.mWriteBatch = s.recordsAt s.applied
  allPlain : ∀ events ∈ s.finished, ∃ version, events.all (plain version)
  sorted : ∀ p q, p ≤ q → lastVersion (s.finished.take p) ≤ lastVersion (s.finished.take q)
  coherent : ∀ key, (s.mem.line key).Coherent (s.cellAt key) s.committed s.finished.length
  fresh : ∀ key c, s.mem.mData key = some c → ∀ p ≤ s.finished.length,
    c.version ≤ lastVersion (s.finished.take p) → s.cellAt key p = s.cellAt key s.finished.length

section Finish

variable {s : LeaderCache} {events : List Event} {key : KeyType} {p : ℕ}

theorem take_finish (hp : p ≤ s.finished.length) :
    (s.finished ++ [events]).take p = s.finished.take p :=
  take_append_of_le_length hp

theorem recordsAt_finish (mem : InMemoryKVStore) (hp : p ≤ s.finished.length) :
    recordsAt { s with mem := mem, finished := s.finished ++ [events] } p = s.recordsAt p := by
  simp [recordsAt, take_finish hp]

theorem cellAt_finish_last (s : LeaderCache) (events : List Event) (key : KeyType)
    (mem : InMemoryKVStore) :
    cellAt { s with mem := mem, finished := s.finished ++ [events] } key (s.finished.length + 1) =
      ((sets Event.effect key events).map (Option.map Record.cell)).getLastD
        (s.cellAt key s.finished.length) := by
  have ht : (s.finished ++ [events]).take (s.finished.length + 1) = s.finished ++ [events] :=
    take_of_length_le (by simp)
  have hn : s.finished.take s.finished.length = s.finished := take_length
  simp only [cellAt, recordsAt, ht, hn, flatten_append, replay_append, flatten_singleton]
  rw [replay_eq_getLastD]
  cases hs : (sets Event.effect key events).getLast? <;> simp [hs]

end Finish

variable {s t : LeaderCache}

theorem Inv.ttl_eq (h : Inv s) {key : KeyType} {p : ℕ} {r : Record} (hr : s.recordsAt p key = some r) :
    r.ttl = INFINITE_TTL := by
  obtain hnone | ⟨e, he, heff⟩ := exists_of_replayOn_eq_some Event.effect hr
  · cases hnone
  · obtain ⟨events, hmem, hev⟩ := mem_flatten.mp he
    obtain ⟨version, hall⟩ := h.allPlain events (mem_of_mem_take hmem)
    have hplain : plain version e := all_eq_true.mp hall e hev
    cases e with
    | read e | delete e => simp [Event.effect] at heff
    | write e =>
      simp only [Event.effect] at heff
      split_ifs at heff
      cases heff
      simp only [plain, Bool.and_eq_true, Bool.not_eq_eq_eq_not, Bool.not_true] at hplain
      simp [WriteEvent.record, hplain.1]
    | importKV e => simp [plain] at hplain

theorem Inv.visible_cellAt (h : Inv s) (now : ℕ) (key : KeyType) (p : ℕ) :
    visible now (s.cellAt key p) = s.cellAt key p := by
  unfold cellAt
  cases hr : s.recordsAt p key with
  | none => rfl
  | some r => simp [visible, Record.cell, isTimeOut, h.ttl_eq hr]

theorem Inv.cell_eq (h : Inv s) (key : KeyType) : s.db.cell key = s.cellAt key s.committed := by
  simp [RocksDBKVStore.cell, cellAt, h.flushed]

theorem Inv.committed_le_length (h : Inv s) : s.committed ≤ s.finished.length :=
  Nat.le_trans h.committed_le h.applied_le

theorem Inv.coherent_reads (h : Inv s) : s.Coherent := by
  intro key now out
  have hread : (s.mem.line key).read (s.db.cell key) = s.cellAt key s.finished.length := by
    rw [h.cell_eq]
    exact (h.coherent key).read_eq h.committed_le_length
  have hvis : visible now ((s.mem.line key).read (s.db.cell key)) =
      s.cellAt key s.finished.length := by
    rw [hread, h.visible_cellAt]
  have hst := @InMemoryKVStore.readKV_status s.mem s.db now key out (h.noError key)
  cases hr : s.recordsAt s.finished.length key with
  | none => simpa [hvis, cellAt, hr] using hst
  | some r =>
    have hc : visible now ((s.mem.line key).read (s.db.cell key)) = some r.cell := by
      simp [hvis, cellAt, hr]
    obtain ⟨hv, hver⟩ := @InMemoryKVStore.readKV_out s.mem s.db now key out (h.noError key) r.cell hc
    exact ⟨by simpa [hc] using hst, hv, hver⟩

theorem lastVersion_concat (bundles : List (List Event)) (events : List Event) :
    lastVersion (bundles ++ [events]) = getVersionFromBundle events := by
  simp [lastVersion]

theorem version_of_plain {version : ℕ} {e : Event} {key : KeyType} {r : Record}
    (he : plain version e) (heff : e.effect = some (key, some r)) : r.version = version := by
  cases e with
  | read e | importKV e => simp [plain] at he
  | write e =>
    simp only [Event.effect] at heff
    split_ifs at heff
    cases heff
    simp only [plain, Bool.and_eq_true, decide_eq_true_eq] at he
    exact he.2
  | delete e => simp [Event.effect] at heff

theorem lastVersion_take_finish {events : List Event}
    (hsorted : ∀ p q, p ≤ q → lastVersion (s.finished.take p) ≤ lastVersion (s.finished.take q))
    (hver : lastVersion s.finished < getVersionFromBundle events) {p q : ℕ} (hpq : p ≤ q) :
    lastVersion ((s.finished ++ [events]).take p) ≤ lastVersion ((s.finished ++ [events]).take q) := by
  have hlast (r : ℕ) (hr : s.finished.length < r) :
      (s.finished ++ [events]).take r = s.finished ++ [events] :=
    take_of_length_le (by simp; omega)
  by_cases hq : q ≤ s.finished.length
  · rw [take_finish hq, take_finish (Nat.le_trans hpq hq)]
    exact hsorted p q hpq
  · rw [hlast q (by omega), lastVersion_concat]
    by_cases hp : p ≤ s.finished.length
    · have hle := hsorted p s.finished.length hp
      rw [take_length] at hle
      rw [take_finish hp]
      omega
    · rw [hlast p (by omega), lastVersion_concat]

theorem DeletesCached.miss {events : List Event} (hG : s.DeletesCached (.finish events))
    {key : KeyType} (hl : s.mem.line key = .miss)
    (hne : (sets Event.effect key events).map (Option.map Record.cell) ≠ [])
    (hdel : ∀ v ∈ (sets Event.effect key events).map (Option.map Record.cell), v = none) :
    s.db.mRocksDB key = none := by
  obtain ⟨hm, hd⟩ := InMemoryKVStore.line_eq_miss.mp hl
  by_contra hr
  obtain ⟨v, hv⟩ := exists_mem_of_ne_nil _ (by simpa using hne)
  have hv0 : v = none := by simpa using hdel (v.map Record.cell) (mem_map_of_mem hv)
  obtain ⟨e, he, heff⟩ := (mem_sets Event.effect).mp (hv0 ▸ hv)
  obtain ⟨f, hf, r, hfr⟩ := hG key hm hd ⟨e, he, heff⟩ (ne_none_iff_isSome.mp hr)
  have hmem : some r ∈ sets Event.effect key events := (mem_sets Event.effect).mpr ⟨f, hf, hfr⟩
  simpa using hdel (some r.cell) (mem_map_of_mem hmem)

theorem Inv.finish (h : Inv s) {events : List Event}
    (hver : lastVersion s.finished < getVersionFromBundle events)
    (hall : events.all (LeaderCache.plain (getVersionFromBundle events)))
    (hG : s.DeletesCached (.finish events)) :
    Inv { s with mem := Event.applyAll s.mem events, finished := s.finished ++ [events] } :=
  { h with
    applied_le := by
      have := h.applied_le
      simp only [length_append, length_singleton]
      omega
    flushed := by rw [recordsAt_finish _ h.committed_le_length]; exact h.flushed
    batched := by rw [recordsAt_finish _ h.applied_le]; exact h.batched
    allPlain := by
      intro es hes
      rcases mem_append.mp hes with hes | hes
      · exact h.allPlain es hes
      · exact ⟨_, mem_singleton.mp hes ▸ hall⟩
    sorted := fun p q hpq => lastVersion_take_finish h.sorted hver hpq
    coherent := by
      intro key
      simp only [length_append, length_singleton, InMemoryKVStore.line_applyAll]
      refine (h.coherent key).apply_entry h.committed_le_length ?_ (cellAt_finish_last s events key _) ?_
      · intro p hp
        simp only [cellAt, recordsAt_finish _ hp]
      · intro hl hne hdel
        simp [cellAt, ← h.flushed, hG.miss hl hne hdel]
    fresh := by
      intro key c hc p hp hver'
      simp only [length_append, length_singleton] at hp ⊢
      rcases Nat.le_succ_iff.mp hp with hp | rfl
      swap
      · rfl
      have hlive := s.mem.line_applyAll events key ▸ InMemoryKVStore.line_eq_live.mpr hc
      have hlt : lastVersion (s.finished.take p) < getVersionFromBundle events := by
        have hle := h.sorted p s.finished.length hp
        rw [take_length] at hle
        omega
      have hnil : (sets Event.effect key events).map (Option.map Record.cell) = [] := by
        -- a cell of the bundle would carry the bundle's own version
        by_contra hne
        have hmem := Line.some_mem_of_foldl_apply_eq_live hlive hne
        obtain ⟨v, hv, hvc⟩ := mem_map.mp hmem
        obtain ⟨r, rfl, rfl⟩ := map_eq_some_iff.mp hvc
        obtain ⟨e, he, heff⟩ := (mem_sets Event.effect).mp hv
        have hrv : r.version = _ := version_of_plain (all_eq_true.mp hall e he) heff
        simp only [take_finish hp, Record.cell] at hver'
        omega
      have hold : s.mem.mData key = some c := by simpa [hnil] using hlive
      rw [cellAt_finish_last, hnil]
      simp only [take_finish hp] at hver'
      simpa [cellAt, recordsAt_finish _ hp] using h.fresh key c hold p hp hver' }

theorem Inv.apply (h : Inv s) {events : List Event} (he : s.finished[s.applied]? = some events) :
    Inv { s with db := Event.applyAll s.db events, applied := s.applied + 1 } := by
  have hlt : s.applied < s.finished.length := (List.getElem?_eq_some_iff.mp he).1
  have htake : s.finished.take (s.applied + 1) = s.finished.take s.applied ++ [events] := by
    rw [take_add_one, he, toList_some]
  rw [Event.applyAll_rocksDB]
  exact
    { noError := h.noError
      applied_le := hlt
      committed_le := Nat.le_succ_of_le h.committed_le
      flushed := h.flushed
      batched := by
        have hb : applyBatch s.db.mRocksDB s.db.mWriteBatch = s.recordsAt s.applied := h.batched
        simp only [applyBatch_append, hb, applyBatch_effects]
        simp [recordsAt, htake, replay_append]
      allPlain := h.allPlain
      sorted := h.sorted
      coherent := h.coherent
      fresh := h.fresh }

theorem Inv.commit (h : Inv s) :
    Inv { s with db := s.db.commit s.applied, committed := s.applied } :=
  { h with
    committed_le := le_rfl
    flushed := h.batched
    coherent := fun key => (h.coherent key).of_flush h.committed_le }

theorem Inv.evict (h : Inv s) (now : ℕ) (keys : List KeyType) {guardVersion : ℕ}
    (hguard : guardVersion ≤ lastVersion (s.finished.take s.committed)) :
    Inv { s with mem := s.mem.evictKV s.db now keys guardVersion } := by
  -- an evicted cell is one whose version the flushed prefix has reached
  have hsettled (key : KeyType) (c : Cell) (hl : s.mem.line key = .live c)
      (hc : isTimeOut now c.deadline c.ttl || c.version ≤ guardVersion) (p : ℕ)
      (hp : s.committed ≤ p) (hpn : p ≤ s.finished.length) :
      s.cellAt key p = s.cellAt key s.finished.length := by
    have hcell : s.cellAt key s.finished.length = some c := by
      simpa [hl, Line.read] using ((h.coherent key).read_eq h.committed_le_length).symm
    have hvis := h.visible_cellAt now key s.finished.length
    have hfresh : isTimeOut now c.deadline c.ttl = false := by
      simpa [hcell, visible] using hvis
    have hver : c.version ≤ guardVersion := by simpa [hfresh] using hc
    exact h.fresh key c (InMemoryKVStore.line_eq_live.mp hl) p hpn
      (Nat.le_trans hver (Nat.le_trans hguard (h.sorted _ _ hp)))
  exact
    { noError := h.noError
      applied_le := h.applied_le
      committed_le := h.committed_le
      flushed := h.flushed
      batched := h.batched
      allPlain := h.allPlain
      sorted := h.sorted
      coherent := by
        intro key
        simp only [InMemoryKVStore.line_evictKV]
        split_ifs
        · exact (h.coherent key).evict (hsettled key)
        · exact h.coherent key
      fresh := by
        intro key c hc
        have hl := InMemoryKVStore.line_eq_live.mpr hc
        simp only [InMemoryKVStore.line_evictKV] at hl
        split_ifs at hl
        · exact h.fresh key c (InMemoryKVStore.line_eq_live.mp (Line.eq_live_of_evict_eq_live hl))
        · exact h.fresh key c (InMemoryKVStore.line_eq_live.mp hl) }

theorem inv_init : Inv {} where
  noError := fun _ => rfl
  applied_le := le_rfl
  committed_le := le_rfl
  flushed := rfl
  batched := rfl
  allPlain := by simp
  sorted := by simp
  coherent := fun _ _ _ hp => by
    obtain rfl := Nat.le_zero.mp hp
    rfl
  fresh := by simp

theorem Inv.step (h : Inv s) {a : Act} (ht : step s a = some t) (hG : s.DeletesCached a) : Inv t := by
  cases a with
  | finish events =>
    simp only [LeaderCache.step] at ht
    split_ifs at ht with hc
    cases ht
    exact h.finish hc.1 hc.2 hG
  | apply =>
    obtain ⟨events, he, rfl⟩ := map_eq_some_iff.mp ht
    exact h.apply he
  | commit =>
    cases ht
    exact h.commit
  | evict now keys guardVersion =>
    simp only [LeaderCache.step] at ht
    split_ifs at ht with hc
    cases ht
    exact h.evict now keys hc

/-- A bundle that breaks the condition makes the very next read wrong. -/
theorem Inv.deletesCached_of_coherent (h : Inv s) {a : Act} (ht : LeaderCache.step s a = some t)
    (hcoh : t.Coherent) : s.DeletesCached a := by
  cases a with
  | apply => trivial
  | commit => trivial
  | evict now keys guardVersion => trivial
  | finish events =>
    simp only [LeaderCache.step] at ht
    split_ifs at ht
    cases ht
    intro key hm hd ⟨e, he, heff⟩ hr
    by_contra hnw
    have hdel : ∀ v ∈ sets Event.effect key events, v = none := by
      intro v hv
      obtain ⟨f, hf, hfeff⟩ := (mem_sets Event.effect).mp hv
      cases v with
      | none => rfl
      | some r => exact absurd ⟨f, hf, r, hfeff⟩ hnw
    have hmiss : (Event.applyAll s.mem events).line key = .miss := by
      rw [InMemoryKVStore.line_applyAll, Line.foldl_apply_eq_miss]
      refine ⟨InMemoryKVStore.line_eq_miss.mpr ⟨hm, hd⟩, ?_⟩
      simpa using hdel
    have hgone : recordsAt { s with
        mem := Event.applyAll s.mem events, finished := s.finished ++ [events] }
        (s.finished ++ [events]).length key = none := by
      have hlast := cellAt_finish_last s events key (Event.applyAll s.mem events)
      obtain ⟨us, u, hus⟩ := (eq_nil_or_concat (sets Event.effect key events)).resolve_left
        (ne_nil_of_mem ((mem_sets Event.effect).mpr ⟨e, he, heff⟩))
      have hu : u = none := hdel u (by simp [hus])
      simpa [cellAt, hus, hu] using hlast
    obtain ⟨r, hr⟩ := isSome_iff_exists.mp hr
    have hvis : visible 0 (((Event.applyAll s.mem events).line key).read (s.db.cell key)) =
        some r.cell := by
      have hcell : s.db.cell key = some r.cell := by simp [RocksDBKVStore.cell, hr]
      rw [hmiss, Line.read, hcell, ← hcell, h.cell_eq, h.visible_cellAt]
    have hst := @InMemoryKVStore.readKV_status (Event.applyAll s.mem events) s.db 0 key {} (h.noError key)
    have hnf := hcoh key 0 {}
    simp only [hgone, hst, hvis] at hnf
    cases hnf

theorem coherent_iff_deletesCached (acts : List Act) :
    (∀ pre t, pre <+: acts → exec step {} pre = some t → t.Coherent) ↔
      Meets step DeletesCached {} acts :=
  (meets_iff_forall_reached (fun _ h => h.coherent_reads) (fun _ _ _ h ht hG => h.step ht hG)
    (fun _ _ _ h ht hcoh => h.deletesCached_of_coherent ht hcoh) inv_init acts).symm

/-- A key is written, flushed, evicted and then deleted: the delete finds no cell to mark. -/
def evictThenDelete : List Act :=
  [.finish [.write { mKey := "k", mValue := "v", mVersion := 1 }], .apply, .commit,
    .evict 0 ["k"] 1, .finish [.delete ⟨"k", "v", 1, 2⟩]]

theorem evictThenDelete_found : ∃ t, exec step {} evictThenDelete = some t ∧
    t.recordsAt t.finished.length "k" = none ∧
    (t.mem.readKV t.db 0 "k" {}).1 = (.ok, ⟨"v", INFINITE_TTL, 1⟩) ∧ ¬ t.Coherent := by
  refine ⟨_, rfl, rfl, rfl, fun h => ?_⟩
  have hst : Status.ok = .notFound ("k" ++ " not found") := h "k" 0 {}
  cases hst

end LeaderCache

end Goblin.Store
