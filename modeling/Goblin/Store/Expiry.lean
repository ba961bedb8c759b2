import Goblin.Lib.Run
import Goblin.Store.CacheLine

/-! Expiry in the cache: a clock, records with deadlines, and a RocksDB that is behind by any number
of events. -/
namespace Goblin.Store

open Model Lib List Option

/-- The events in the order in which they reached the cache. RocksDB holds the effects of the first
`committed` of them, and its write batch those between `committed` and `applied`. -/
structure TimedCache where
  mem : InMemoryKVStore := {}
  db : RocksDBKVStore := {}
  now : ℕ := 0
  events : List Event := []
  applied : ℕ := 0
  committed : ℕ := 0

namespace TimedCache

inductive Act
  | execute (e : Event)
  | apply
  | commit
  | evict (keys : List KeyType) (guardVersion : ℕ)
  | read (key : KeyType)
  | tick (now : ℕ)

/-- An eviction is allowed up to a version below those of all events that RocksDB does not hold yet. -/
def step (s : TimedCache) : Act → Option TimedCache
  | .execute e => some { s with mem := e.apply s.mem, events := s.events ++ [e] }
  | .apply => s.events[s.applied]?.map fun e => { s with db := e.apply s.db, applied := s.applied + 1 }
  | .commit => some { s with db := s.db.commit s.applied, committed := s.applied }
  | .evict keys guardVersion =>
    if ∀ e ∈ s.events.drop s.committed, e.effect.isSome → guardVersion < e.version then
      some { s with mem := s.mem.evictKV s.db s.now keys guardVersion }
    else none
  | .read key => some { s with mem := (s.mem.readKV s.db s.now key {}).2 }
  | .tick now => if s.now ≤ now then some { s with now := now } else none

/-- The records after the first `p` events. -/
def recordsAt (s : TimedCache) (p : ℕ) : RecordMap := replay (fun _ => none) (s.events.take p)

/-- What the latest event of the key has left. -/
def latest (s : TimedCache) (key : KeyType) : Option Record := s.recordsAt s.events.length key

def cellAt (s : TimedCache) (key : KeyType) (p : ℕ) : Option Cell := (s.recordsAt p key).map Record.cell

structure Inv (s : TimedCache) : Prop where
  noError : ∀ key, s.db.mGetError key = none
  applied_le : s.applied ≤ s.events.length
  committed_le : s.committed ≤ s.applied
  flushed : s.db.mRocksDB = s.recordsAt s.committed
  batched : applyBatch s.db.mRocksDB s.db.mWriteBatch = s.recordsAt s.applied
  agrees : ∀ key, (s.mem.line key).Agrees (s.cellAt key s.events.length)

section Execute

variable {s : TimedCache} {e : Event} {key : KeyType} {p : ℕ}

theorem recordsAt_execute (mem : InMemoryKVStore) (hp : p ≤ s.events.length) :
    recordsAt { s with mem := mem, events := s.events ++ [e] } p = s.recordsAt p := by
  simp [recordsAt, take_append_of_le_length hp]

theorem recordsAt_execute_last (mem : InMemoryKVStore) :
    recordsAt { s with mem := mem, events := s.events ++ [e] } (s.events.length + 1) =
      applyEffect Event.effect (s.recordsAt s.events.length) e := by
  have ht : (s.events ++ [e]).take (s.events.length + 1) = s.events ++ [e] :=
    take_of_length_le (by simp)
  simp only [recordsAt, ht, replay_append, take_length]
  rfl

theorem latest_execute_of_effect {r : Option Record} (he : e.effect = some (key, r))
    (mem : InMemoryKVStore) (k : KeyType) :
    latest { s with mem := mem, events := s.events ++ [e] } k =
      if k = key then r else s.latest k := by
  have hlen : (s.events ++ [e]).length = s.events.length + 1 := by simp
  simp only [latest, hlen, recordsAt_execute_last, applyEffect, he, Function.update_apply]

theorem latest_execute_of_none (he : e.effect = none) (mem : InMemoryKVStore) (k : KeyType) :
    latest { s with mem := mem, events := s.events ++ [e] } k = s.latest k := by
  have hlen : (s.events ++ [e]).length = s.events.length + 1 := by simp
  simp only [latest, hlen, recordsAt_execute_last, applyEffect, he]

end Execute

namespace Inv

variable {s t : TimedCache}

theorem committed_le_length (h : Inv s) : s.committed ≤ s.events.length :=
  Nat.le_trans h.committed_le h.applied_le

theorem cell_eq (h : Inv s) (key : KeyType) : s.db.cell key = s.cellAt key s.committed := by
  simp [RocksDBKVStore.cell, cellAt, h.flushed]

theorem execute (h : Inv s) (e : Event) :
    Inv { s with mem := e.apply s.mem, events := s.events ++ [e] } :=
  { h with
    applied_le := by
      have := h.applied_le
      simp only [length_append, length_singleton]
      omega
    flushed := by
      rw [recordsAt_execute _ h.committed_le_length]
      exact h.flushed
    batched := by
      rw [recordsAt_execute _ h.applied_le]
      exact h.batched
    agrees := by
      intro k
      change ((e.apply s.mem).line k).Agrees ((latest _ k).map Record.cell)
      cases he : e.effect with
      | none =>
        rw [latest_execute_of_none he, InMemoryKVStore.apply_of_effect_none he]
        exact h.agrees k
      | some w =>
        obtain ⟨key, r⟩ := w
        rw [latest_execute_of_effect he, InMemoryKVStore.line_apply he]
        by_cases hk : k = key
        · rw [if_pos hk, if_pos hk]
          exact Line.agrees_apply _ _
        · rw [if_neg hk, if_neg hk]
          exact h.agrees k }

theorem apply (h : Inv s) {e : Event} (he : s.events[s.applied]? = some e) :
    Inv { s with db := e.apply s.db, applied := s.applied + 1 } := by
  have hlt : s.applied < s.events.length := (List.getElem?_eq_some_iff.mp he).1
  have htake : s.events.take (s.applied + 1) = s.events.take s.applied ++ [e] := by
    rw [take_add_one, he, toList_some]
  rw [Event.apply_rocksDB]
  exact
    { noError := h.noError
      applied_le := hlt
      committed_le := Nat.le_succ_of_le h.committed_le
      flushed := h.flushed
      batched := by
        have hb : applyBatch s.db.mRocksDB s.db.mWriteBatch = s.recordsAt s.applied := h.batched
        have heffect : e.effect.toList = [e].filterMap Event.effect := by
          cases hf : e.effect <;> simp [hf]
        simp only [applyBatch_append, hb, heffect, applyBatch_effects]
        simp only [recordsAt, htake, replay_append]
      agrees := h.agrees }

theorem commit (h : Inv s) :
    Inv { s with db := s.db.commit s.applied, committed := s.applied } :=
  { h with
    committed_le := le_rfl
    flushed := h.batched }

theorem evict (h : Inv s) (keys : List KeyType) (guardVersion : ℕ) :
    Inv { s with mem := s.mem.evictKV s.db s.now keys guardVersion } :=
  { h with
    agrees := by
      intro key
      simp only [InMemoryKVStore.line_evictKV]
      split_ifs
      · exact (h.agrees key).evict _
      · exact h.agrees key }

theorem read (h : Inv s) (key : KeyType) :
    Inv { s with mem := (s.mem.readKV s.db s.now key {}).2 } :=
  { h with
    agrees := by
      intro k
      simp only [InMemoryKVStore.line_readKV]
      split_ifs with hk
      · subst hk
        exact (h.agrees k).evict _
      · exact h.agrees k }

theorem step (h : Inv s) {a : Act} (ht : step s a = some t) : Inv t := by
  cases a with
  | execute e =>
    cases ht
    exact h.execute e
  | apply =>
    obtain ⟨e, he, rfl⟩ := map_eq_some_iff.mp ht
    exact h.apply he
  | commit =>
    cases ht
    exact h.commit
  | evict keys guardVersion =>
    simp only [TimedCache.step] at ht
    split_ifs at ht
    cases ht
    exact h.evict keys guardVersion
  | read key =>
    cases ht
    exact h.read key
  | tick now =>
    simp only [TimedCache.step] at ht
    split_ifs at ht
    cases ht
    exact { h with }

end Inv

theorem inv_init : Inv {} where
  noError := fun _ => rfl
  applied_le := le_rfl
  committed_le := le_rfl
  flushed := rfl
  batched := rfl
  agrees := fun _ hmiss => absurd rfl hmiss

theorem inv_of_exec {acts : List Act} {s : TimedCache} (hs : exec step {} acts = some s) : Inv s :=
  exec_invariant_of_step (fun _ _ _ h ht => h.step ht) inv_init hs

/-- RocksDB shows what it has flushed, and later what it has applied so far or applies from now on. -/
def Shows (s : TimedCache) (p : ℕ) : Prop := p = s.committed ∨ s.applied ≤ p ∧ p ≤ s.events.length

/-- No record that RocksDB shows or is going to show for the key is younger than the clock. -/
def CaughtUp (s : TimedCache) (key : KeyType) : Prop :=
  ∀ p, s.Shows p → visible s.now (s.cellAt key p) = none

def Act.Writes (key : KeyType) : Act → Prop
  | .execute e => ∃ r, e.effect = some (key, some r)
  | _ => False

theorem visible_mono {now now' : ℕ} {c : Option Cell} (hnow : now ≤ now')
    (h : visible now c = none) : visible now' c = none := by
  cases c with
  | none => rfl
  | some c =>
    simp only [visible] at h ⊢
    split_ifs at h with ht
    simp only [isTimeOut, ne_eq, Bool.and_eq_true, decide_eq_true_eq] at ht
    have ht' : isTimeOut now' c.deadline c.ttl := by
      simp only [isTimeOut, ne_eq, Bool.and_eq_true, decide_eq_true_eq]
      exact ⟨ht.1, Nat.le_trans ht.2 hnow⟩
    rw [if_pos ht']

/-- The cache answers nothing for the key, and neither does RocksDB, now or later. -/
structure Gone (s : TimedCache) (key : KeyType) : Prop where
  inv : Inv s
  notLive : ∀ c, s.mem.line key ≠ .live c
  caughtUp : s.CaughtUp key

namespace Gone

variable {s t : TimedCache} {key : KeyType}

theorem readKV (h : Gone s key) (out : ReadOut) :
    (s.mem.readKV s.db s.now key out).1.1 = .notFound (key ++ " not found") := by
  have hcell : visible s.now (s.db.cell key) = none := by
    rw [h.inv.cell_eq]
    exact h.caughtUp s.committed (.inl rfl)
  rw [InMemoryKVStore.readKV_status (h.inv.noError key)]
  cases hl : s.mem.line key with
  | miss => simp [Line.read, hcell]
  | live c => exact absurd hl (h.notLive c)
  | dead => simp [Line.read, visible]

theorem execute (h : Gone s key) {e : Event} (he : ¬ (Act.execute e).Writes key) :
    Gone { s with mem := e.apply s.mem, events := s.events ++ [e] } key where
  inv := h.inv.execute e
  notLive := by
    intro c
    cases heff : e.effect with
    | none =>
      simp only [InMemoryKVStore.apply_of_effect_none heff]
      exact h.notLive c
    | some w =>
      obtain ⟨k, r⟩ := w
      simp only [InMemoryKVStore.line_apply heff]
      split_ifs with hk
      · subst hk
        -- the event is a delete, and a delete marks at most the line
        cases r with
        | some r => exact absurd ⟨r, heff⟩ he
        | none =>
          cases hl : s.mem.line key with
          | miss => simp [Line.apply, Line.delete]
          | live c' => exact absurd hl (h.notLive c')
          | dead => simp [Line.apply, Line.delete]
      · exact h.notLive c
  caughtUp := by
    intro p hp
    by_cases hle : p ≤ s.events.length
    · have hshows : s.Shows p := hp.imp_right fun hp => ⟨hp.1, hle⟩
      simp only [cellAt, recordsAt_execute _ hle]
      exact h.caughtUp p hshows
    · have hlast : p = s.events.length + 1 := by
        rcases hp with rfl | ⟨_, hp⟩
        · exact absurd h.inv.committed_le_length hle
        · simp only [length_append, length_singleton] at hp
          omega
      subst hlast
      have hold := h.caughtUp s.events.length (.inr ⟨h.inv.applied_le, le_rfl⟩)
      simp only [cellAt, recordsAt_execute_last] at hold ⊢
      by_cases htouch : Touches Event.effect key e
      · obtain ⟨r, heff⟩ := htouch
        cases r with
        | some r => exact absurd ⟨r, heff⟩ he
        | none => simp [applyEffect, heff, visible]
      · rw [applyEffect_of_not_touches _ htouch]
        exact hold

theorem apply (h : Gone s key) {e : Event} (he : s.events[s.applied]? = some e) :
    Gone { s with db := e.apply s.db, applied := s.applied + 1 } key where
  inv := h.inv.apply he
  notLive := h.notLive
  caughtUp := fun p hp => h.caughtUp p (hp.imp_right fun hp => ⟨Nat.le_of_succ_le hp.1, hp.2⟩)

theorem commit (h : Gone s key) :
    Gone { s with db := s.db.commit s.applied, committed := s.applied } key where
  inv := h.inv.commit
  notLive := h.notLive
  caughtUp := by
    rintro p (rfl | hp)
    · exact h.caughtUp _ (.inr ⟨le_rfl, h.inv.applied_le⟩)
    · exact h.caughtUp p (.inr hp)

theorem step (h : Gone s key) {a : Act} (ha : ¬ a.Writes key) (ht : step s a = some t) :
    Gone t key := by
  cases a with
  | execute e =>
    cases ht
    exact h.execute ha
  | apply =>
    obtain ⟨e, he, rfl⟩ := map_eq_some_iff.mp ht
    exact h.apply he
  | commit =>
    cases ht
    exact h.commit
  | evict keys guardVersion =>
    have hinv := h.inv.step ht
    simp only [TimedCache.step] at ht
    split_ifs at ht
    cases ht
    refine ⟨hinv, fun c hc => ?_, h.caughtUp⟩
    simp only [InMemoryKVStore.line_evictKV] at hc
    split_ifs at hc
    · exact h.notLive c (Line.eq_live_of_evict_eq_live hc)
    · exact h.notLive c hc
  | read k =>
    have hinv := h.inv.step ht
    cases ht
    refine ⟨hinv, fun c hc => ?_, h.caughtUp⟩
    simp only [InMemoryKVStore.line_readKV] at hc
    split_ifs at hc with hk
    · subst hk
      exact h.notLive c (Line.eq_live_of_evict_eq_live hc)
    · exact h.notLive c hc
  | tick now =>
    have hinv := h.inv.step ht
    simp only [TimedCache.step] at ht
    split_ifs at ht with hnow
    cases ht
    exact ⟨hinv, h.notLive, fun p hp => visible_mono hnow (h.caughtUp p hp)⟩

theorem exec (h : Gone s key) {later : List Act} (hlater : ∀ a ∈ later, ¬ a.Writes key)
    (ht : exec TimedCache.step s later = some t) : Gone t key := by
  induction later generalizing s with
  | nil =>
    cases ht
    exact h
  | cons a later ih =>
    obtain ⟨r, hr, hrt⟩ := exec_cons ht
    exact ih (h.step (hlater a mem_cons_self) hr)
      (fun b hb => hlater b (mem_cons_of_mem _ hb)) hrt

end Gone

theorem Inv.line_read_of_expired {s : TimedCache} (h : Inv s) {key : KeyType} {r : Record}
    (hr : s.latest key = some r) (hexpired : isTimeOut s.now r.deadline r.ttl) :
    (s.mem.readKV s.db s.now key {}).2.line key = .miss := by
  rw [InMemoryKVStore.line_readKV, if_pos rfl]
  have hcell : s.cellAt key s.events.length = some r.cell := by
    simp only [cellAt]
    exact congrArg (Option.map Record.cell) hr
  have hagrees := h.agrees key
  rw [hcell] at hagrees
  cases hl : s.mem.line key with
  | miss => rfl
  | live c =>
    rw [hl] at hagrees
    have hc : c = r.cell := by simpa [Line.read] using hagrees (by simp) none
    have hout : isTimeOut s.now c.deadline c.ttl := by rw [hc]; exact hexpired
    simp [Line.evict, hout]
  | dead =>
    rw [hl] at hagrees
    have hnone : none = some r.cell := hagrees (by simp) none
    cases hnone

theorem Inv.visible_of_readKV {s : TimedCache} (h : Inv s) {key : KeyType} {out : ReadOut} {msg : String}
    (hmiss : s.mem.line key = .miss) (hread : (s.mem.readKV s.db s.now key out).1.1 = .notFound msg) :
    visible s.now (s.cellAt key s.committed) = none := by
  rw [InMemoryKVStore.readKV_status (h.noError key), hmiss, Line.read, h.cell_eq] at hread
  cases hv : visible s.now (s.cellAt key s.committed) with
  | none => rfl
  | some c =>
    rw [hv] at hread
    cases hread

theorem exec_apply (s : TimedCache) {n : ℕ} (hn : s.applied + n ≤ s.events.length) :
    ∃ db, exec step s (List.replicate n .apply) = some { s with db := db, applied := s.applied + n } := by
  induction n generalizing s with
  | zero => exact ⟨s.db, rfl⟩
  | succ n ih =>
    have hlt : s.applied < s.events.length := by omega
    have he : s.events[s.applied]? = some s.events[s.applied] := getElem?_eq_getElem hlt
    have hstep : step s .apply = some { s with
        db := s.events[s.applied].apply s.db, applied := s.applied + 1 } := by
      simp [step, he]
    obtain ⟨db, hdb⟩ := ih { s with db := s.events[s.applied].apply s.db, applied := s.applied + 1 }
      (by simp only; omega)
    refine ⟨db, ?_⟩
    rw [replicate_succ, exec, hstep, bind_some, hdb, Nat.add_right_comm, Nat.add_assoc]

/-- Whatever RocksDB shows for the key after the read, some later read of the key answers with it. -/
theorem Inv.caughtUp_of_reads {s : TimedCache} (h : Inv s) {key : KeyType}
    (hmiss : s.mem.line key = .miss)
    (hreads : ∀ later t out, (∀ a ∈ later, ¬ Act.Writes key a) → exec TimedCache.step s later = some t →
      (t.mem.readKV t.db t.now key out).1.1 = .notFound (key ++ " not found")) :
    s.CaughtUp key := by
  rintro p (rfl | ⟨happlied, hlength⟩)
  · exact h.visible_of_readKV hmiss (hreads [] s {} (forall_mem_nil _) rfl)
  · obtain ⟨n, rfl⟩ := Nat.exists_eq_add_of_le happlied
    obtain ⟨db, hdb⟩ := exec_apply s hlength
    have hrun : exec TimedCache.step s (List.replicate n .apply ++ [.commit]) = some { s with
        db := db.commit (s.applied + n), applied := s.applied + n, committed := s.applied + n } := by
      rw [exec_append, hdb]
      rfl
    have hinv := exec_invariant_of_step (fun _ _ _ hi ht => hi.step ht) h hrun
    refine hinv.visible_of_readKV hmiss (hreads _ _ {} (fun a ha => ?_) hrun)
    rcases mem_append.mp ha with ha | ha
    · rw [eq_of_mem_replicate ha]
      exact id
    · rw [mem_singleton.mp ha]
      exact id

/-- Once a read finds that the latest write of the key has expired, the key stays away until it is
written again exactly when RocksDB has no younger record left to show. -/
theorem stays_gone_iff_caughtUp {acts : List Act} {s : TimedCache} (hs : exec step {} acts = some s)
    {key : KeyType} {r : Record} (hlatest : s.latest key = some r)
    (hexpired : isTimeOut s.now r.deadline r.ttl) :
    (∀ later t out, (∀ a ∈ later, ¬ Act.Writes key a) →
        exec step s (.read key :: later) = some t →
        (t.mem.readKV t.db t.now key out).1.1 = .notFound (key ++ " not found")) ↔
      s.CaughtUp key := by
  have hinv : Inv s := inv_of_exec hs
  have hmiss := hinv.line_read_of_expired hlatest hexpired
  have hstep : step s (.read key) = some { s with mem := (s.mem.readKV s.db s.now key {}).2 } := rfl
  constructor
  · intro hreads
    refine (hinv.read key).caughtUp_of_reads hmiss fun later t out hlater ht => ?_
    refine hreads later t out hlater ?_
    rw [exec, hstep, bind_some, ht]
  · intro hcaught later t out hlater ht
    obtain ⟨u, hu, hut⟩ := exec_cons ht
    cases hstep.symm.trans hu
    have hnotLive (c : Cell) : (s.mem.readKV s.db s.now key {}).2.line key ≠ .live c := by simp [hmiss]
    have hgone : Gone { s with mem := (s.mem.readKV s.db s.now key {}).2 } key :=
      ⟨hinv.read key, hnotLive, hcaught⟩
    exact (hgone.exec hlater hut).readKV out

/-- A key is written with a ttl of five seconds, flushed, and left to expire. -/
def flushedTTL : List Act :=
  [.execute (.write
      { mKey := "k", mValue := "v", mVersion := 1, mEnableTTL := true, mTTL := 5, mDeadline := 5 }),
    .apply, .commit, .tick 5]

theorem flushedTTL_stays_gone : ∃ s r, exec step {} flushedTTL = some s ∧ s.latest "k" = some r ∧
    isTimeOut s.now r.deadline r.ttl ∧ ∀ later t out, (∀ a ∈ later, ¬ Act.Writes "k" a) →
      exec step s (.read "k" :: later) = some t →
      (t.mem.readKV t.db t.now "k" out).1.1 = .notFound ("k" ++ " not found") := by
  refine ⟨_, _, rfl, rfl, rfl, ?_⟩
  refine (stays_gone_iff_caughtUp (show exec step {} flushedTTL = some _ from rfl) rfl rfl).mpr ?_
  rintro p (rfl | ⟨happlied, hlength⟩)
  · rfl
  · obtain rfl : p = 1 := Nat.le_antisymm hlength happlied
    rfl

/-- RocksDB holds an older value without ttl when the newer one expires in the cache. -/
def olderBehind : List Act :=
  [.execute (.write { mKey := "k", mValue := "old", mVersion := 1 }), .apply, .commit,
    .execute (.write
      { mKey := "k", mValue := "new", mVersion := 2, mEnableTTL := true, mTTL := 5, mDeadline := 5 }),
    .tick 5]

theorem olderBehind_reappears : ∃ s t, exec step {} olderBehind = some s ∧
    (s.mem.readKV s.db s.now "k" {}).1.1 = .notFound ("k" ++ " not found") ∧
    step s (.read "k") = some t ∧ (t.mem.readKV t.db t.now "k" {}).1 = (.ok, ⟨"old", INFINITE_TTL, 1⟩) :=
  ⟨_, _, rfl, rfl, rfl, rfl⟩

end TimedCache

end Goblin.Store
