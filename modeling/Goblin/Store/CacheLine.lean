import Goblin.Model.Event

/-! The cache as one line per key: what reads, events and evictions do to the line of a key. -/
namespace Goblin.Store

open Model Lib List

/-- A record or a cell that has not timed out. -/
def visible (now : ℕ) : Option Cell → Option Cell
  | none => none
  | some c => if isTimeOut now c.deadline c.ttl then none else some c

theorem visible_eq_some {now : ℕ} {c : Option Cell} {d : Cell} :
    visible now c = some d ↔ c = some d ∧ isTimeOut now d.deadline d.ttl = false := by
  cases c with
  | none => simp [visible]
  | some c =>
    cases hout : isTimeOut now c.deadline c.ttl with
    | true =>
      rw [visible, if_pos hout]
      refine ⟨nofun, fun ⟨hd, hin⟩ => ?_⟩
      cases hd
      rw [hin] at hout
      cases hout
    | false =>
      rw [visible, hout]
      refine ⟨fun hd => ⟨hd, ?_⟩, And.left⟩
      cases hd
      exact hout

def RocksDBKVStore.cell (db : RocksDBKVStore) (key : KeyType) : Option Cell :=
  (db.mRocksDB key).map Record.cell

namespace InMemoryKVStore

def line (s : InMemoryKVStore) (key : KeyType) : Line Cell :=
  match s.mData key with
  | some c => .live c
  | none =>
    match s.mDeletedData key with
    | some _ => .dead
    | none => .miss

variable {s : InMemoryKVStore} {db : RocksDBKVStore} {now : ℕ} {key k : KeyType}
  {out : ReadOut}

@[simp] theorem line_eq_live {c : Cell} : s.line key = .live c ↔ s.mData key = some c := by
  unfold line
  cases s.mData key with
  | some d => simp
  | none => cases s.mDeletedData key <;> simp

@[simp] theorem line_eq_miss :
    s.line key = .miss ↔ s.mData key = none ∧ s.mDeletedData key = none := by
  unfold line
  cases s.mData key with
  | some d => simp
  | none => cases s.mDeletedData key <;> simp

attribute [local simp] Line.read RocksDBKVStore.cell

theorem readKV_of_dead (h : s.line key = .dead) :
    (s.readKV db now key out).1.1 = .notFound (key ++ " not found") := by
  unfold line at h
  unfold readKV
  cases hm : s.mData key with
  | some c => simp [hm] at h
  | none =>
    cases hd : s.mDeletedData key with
    | some v => rfl
    | none => simp [hm, hd] at h

/-- A read answers with the cell behind the line, unless that cell has timed out. -/
theorem readKV_status (hdb : db.mGetError key = none) :
    (s.readKV db now key out).1.1 =
      match visible now ((s.line key).read (db.cell key)) with
      | some _ => .ok
      | none => .notFound (key ++ " not found") := by
  unfold readKV line
  cases hm : s.mData key with
  | some c => by_cases ht : isTimeOut now c.deadline c.ttl <;> simp [visible, ht]
  | none =>
    cases hd : s.mDeletedData key with
    | some v => simp [visible]
    | none =>
      cases hr : db.mRocksDB key with
      | none => simp [RocksDBKVStore.readKV, visible, hdb, hr]
      | some r =>
        by_cases ht : isTimeOut now r.deadline r.ttl <;>
          simp [RocksDBKVStore.readKV, Record.cell, visible, hdb, hr, ht]

theorem readKV_out (hdb : db.mGetError key = none) {c : Cell}
    (hc : visible now ((s.line key).read (db.cell key)) = some c) :
    (s.readKV db now key out).1.2.value = c.value ∧
      (s.readKV db now key out).1.2.version = c.version := by
  unfold readKV line at *
  cases hm : s.mData key with
  | some d =>
    by_cases ht : isTimeOut now d.deadline d.ttl
    · simp [visible, hm, ht] at hc
    · have hd : d = c := by simpa [visible, hm, ht] using hc
      subst hd
      simp [ht]
  | none =>
    cases hd : s.mDeletedData key with
    | some v => simp [visible, hm, hd] at hc
    | none =>
      cases hr : db.mRocksDB key with
      | none => simp [visible, hm, hd, hr] at hc
      | some r =>
        by_cases ht : isTimeOut now r.deadline r.ttl
        · simp [visible, Record.cell, hm, hd, hr, ht] at hc
        · have hrc : r.cell = c := by
            simpa [visible, Record.cell, hm, hd, hr, ht] using hc
          subst hrc
          simp [RocksDBKVStore.readKV, Record.cell, hdb, hr, ht]

theorem readKV_congr {m m' : InMemoryKVStore} (hdata : m.mData key = m'.mData key)
    (hdeleted : m.mDeletedData key = m'.mDeletedData key) :
    (m.readKV db now key out).1 = (m'.readKV db now key out).1 := by
  unfold readKV
  rw [hdata, hdeleted]
  split
  · split <;> rfl
  · split_ifs <;> rfl

theorem line_writeTTLKV (value : ValueType) (version : ℕ) (ttl : ℕ)
    (deadline updateTime : ℕ) (udfMeta : UserDefinedMeta) :
    (s.writeTTLKV key value version ttl deadline updateTime udfMeta).line k =
      if k = key then .live ⟨value, version, ttl, deadline, updateTime⟩ else s.line k := by
  by_cases hk : k = key <;> simp [line, writeTTLKV, hk]

theorem deleteKV_of_none (h : s.mData key = none) (version : ℕ) : s.deleteKV key version = s := by
  simp [deleteKV, h]

theorem deleteKV_of_some {c : Cell} (h : s.mData key = some c) (version : ℕ) :
    (s.deleteKV key version).mData key = none ∧
      ((s.deleteKV key version).mDeletedData key).isSome := by
  simp [deleteKV, h]

theorem line_deleteKV (version : ℕ) :
    (s.deleteKV key version).line k = if k = key then (s.line key).delete else s.line k := by
  cases hm : s.mData key with
  | none =>
    rw [deleteKV_of_none hm]
    split_ifs with hk
    · subst hk
      cases hd : s.mDeletedData k <;> simp [line, Line.delete, hm, hd]
    · rfl
  | some c =>
    by_cases hk : k = key
    · subst hk
      simp [line, deleteKV, Line.delete, hm]
    · simp [line, deleteKV, hm, hk]

theorem line_apply {e : Event} {r : Option Record} (he : e.effect = some (key, r)) :
    (e.apply s).line k = if k = key then (s.line key).apply (r.map Record.cell) else s.line k := by
  have hw (w : WriteEvent) (hw : (if w.mIsNoOp then none else some (w.mKey, some w.record)) =
      some (key, r)) :
      (w.apply s).line k = if k = key then (s.line key).apply (r.map Record.cell) else s.line k := by
    split_ifs at hw with hn
    cases hw
    rw [WriteEvent.apply_memory w s (by simpa using hn), line_writeTTLKV]
    rfl
  cases e with
  | read e => simp [Event.effect] at he
  | write e => exact hw e he
  | delete e =>
    cases he
    exact line_deleteKV e.mVersion
  | importKV e => exact hw e.mWriteEvent he

theorem mData_apply {e : Event} {r : Record} (he : e.effect = some (key, some r)) :
    (e.apply s).mData key = some r.cell := by
  have hline := line_apply (s := s) (k := key) he
  rw [if_pos rfl] at hline
  exact line_eq_live.mp hline

theorem apply_of_effect_none {e : Event} (he : e.effect = none) : e.apply s = s := by
  cases e with
  | read e => rfl
  | write e | importKV e => simp_all [Event.effect, Event.apply, WriteEvent.apply]
  | delete e => simp [Event.effect] at he

/-- An event that does not touch the key does nothing, or writes or deletes another key. -/
theorem apply_of_not_touches_cases {P : (InMemoryKVStore → InMemoryKVStore) → Prop} {e : Event}
    (h : ¬ Touches Event.effect k e) (hread : P fun s => s)
    (hwrite : ∀ key ≠ k, ∀ v n ttl deadline time udf, P fun s => s.writeTTLKV key v n ttl deadline time udf)
    (hdelete : ∀ key ≠ k, ∀ n, P fun s => s.deleteKV key n) : P fun s => e.apply s := by
  have happly (w : WriteEvent) (hw : w.mIsNoOp = false → w.mKey ≠ k) : P fun s => w.apply s := by
    cases hn : w.mIsNoOp with
    | true => simpa only [WriteEvent.apply, hn, if_true] using hread
    | false => simpa only [WriteEvent.apply_memory w _ hn] using hwrite _ (hw hn) _ _ _ _ _ _
  cases e with
  | read e => exact hread
  | write w => exact happly w fun hn hk => h ⟨some w.record, by simp [Event.effect, hn, hk]⟩
  | importKV i =>
    exact happly i.mWriteEvent fun hn hk => h ⟨some i.mWriteEvent.record, by simp [Event.effect, hn, hk]⟩
  | delete d => exact hdelete d.mKey (fun hk => h ⟨none, by simp [Event.effect, hk]⟩) _

theorem apply_of_not_touches {e : Event} (h : ¬ Touches Event.effect k e) :
    (e.apply s).mData k = s.mData k ∧ (e.apply s).mDeletedData k = s.mDeletedData k := by
  refine apply_of_not_touches_cases (P := fun f => (f s).mData k = s.mData k ∧
    (f s).mDeletedData k = s.mDeletedData k) h ⟨rfl, rfl⟩ (fun key hk => ?_) fun key hk n => ?_
  · simp [writeTTLKV, hk.symm]
  · simp only [deleteKV]
    split <;> simp [hk.symm]

theorem readKV_state_of_alive (h : ∀ c, s.mData key = some c → isTimeOut now c.deadline c.ttl = false) :
    (s.readKV db now key out).2 = s := by
  unfold readKV
  cases hm : s.mData key with
  | none => cases s.mDeletedData key <;> rfl
  | some c => simp [h c hm]

theorem readKV_state_of_expired {c : Cell} (hc : s.mData key = some c)
    (ht : isTimeOut now c.deadline c.ttl) : (s.readKV db now key out).2 = s.eraseData key := by
  simp [readKV, hc, ht]

theorem readKV_state_data (hk : k ≠ key) : (s.readKV db now key out).2.mData k = s.mData k := by
  unfold readKV
  split
  · split <;> rfl
  · split_ifs
    · simp [eraseData, hk]
    · rfl

theorem readKV_state_self : (s.readKV db now key out).2.mData key = visible now (s.mData key) := by
  unfold readKV visible
  cases hm : s.mData key with
  | none => cases s.mDeletedData key <;> exact hm
  | some c =>
    dsimp only
    split_ifs
    · simp [eraseData]
    · exact hm

theorem readKV_state_deleted : (s.readKV db now key out).2.mDeletedData k = s.mDeletedData k := by
  unfold readKV
  split
  · split <;> rfl
  · split_ifs <;> rfl

theorem line_readKV : (s.readKV db now key out).2.line k =
    if k = key then (s.line key).evict fun c => isTimeOut now c.deadline c.ttl else s.line k := by
  by_cases hk : k = key
  · subst hk
    rw [if_pos rfl]
    unfold line
    rw [readKV_state_self, readKV_state_deleted]
    cases hm : s.mData k with
    | none => cases s.mDeletedData k <;> rfl
    | some c =>
      have hd : s.mDeletedData k = none := s.disjoint k (by simp [hm])
      by_cases ht : isTimeOut now c.deadline c.ttl <;> simp [visible, Line.evict, ht, hd]
  · rw [if_neg hk]
    unfold line
    rw [readKV_state_data hk, readKV_state_deleted]

theorem apply_eraseData {e : Event} (h : ¬ Touches Event.effect k e) :
    e.apply (s.eraseData k) = (e.apply s).eraseData k := by
  refine apply_of_not_touches_cases (P := fun f => f (s.eraseData k) = (f s).eraseData k) h rfl
    (fun key hk => ?_) fun key hk n => ?_
  · simp [eraseData, writeTTLKV, Function.update_comm hk]
  · cases hc : s.mData key with
    | none => simp [deleteKV, eraseData, hk, hc]
    | some c => simp [deleteKV, eraseData, hk, hc, Function.update_comm hk]

theorem applyAll_eraseData {es : List Event} (h : ∀ e ∈ es, ¬ Touches Event.effect k e) :
    Event.applyAll (s.eraseData k) es = (Event.applyAll s es).eraseData k := by
  induction es generalizing s with
  | nil => rfl
  | cons e es ih =>
    change Event.applyAll (e.apply (s.eraseData k)) es = (Event.applyAll (e.apply s) es).eraseData k
    rw [apply_eraseData (h e mem_cons_self)]
    exact ih fun f hf => h f (mem_cons_of_mem _ hf)

theorem applyAll_eq_self {es : List Event} (h : ∀ e ∈ es, e.apply s = s) :
    Event.applyAll s es = s := by
  induction es with
  | nil => rfl
  | cons e es ih =>
    change Event.applyAll (e.apply s) es = s
    rw [h e mem_cons_self]
    exact ih fun e' he' => h e' (mem_cons_of_mem _ he')

theorem line_applyAll (s : InMemoryKVStore) (es : List Event) (k : KeyType) :
    (Event.applyAll s es).line k =
      ((sets Event.effect k es).map (Option.map Record.cell)).foldl Line.apply (s.line k) := by
  induction es generalizing s with
  | nil => rfl
  | cons e es ih =>
    have hcons : Event.applyAll s (e :: es) = Event.applyAll (e.apply s) es := rfl
    rw [hcons, ih]
    cases he : e.effect with
    | none => simp [sets, he, apply_of_effect_none he]
    | some w =>
      by_cases hk : k = w.1
      · simp [sets, he, hk, line_apply he]
      · simp [sets, he, hk, Ne.symm hk, line_apply he]

theorem line_erase : (s.erase key).line k = if k = key then .miss else s.line k := by
  by_cases hk : k = key <;> simp [line, erase, hk]

theorem line_eraseData (hd : s.mDeletedData key = none) :
    (s.eraseData key).line k = if k = key then .miss else s.line k := by
  by_cases hk : k = key <;> simp [line, eraseData, hk, hd]

theorem line_evictKey (guardVersion : ℕ) :
    (s.evictKey db now key guardVersion).line k =
      if k = key then
        (s.line key).evict fun c => isTimeOut now c.deadline c.ttl || c.version ≤ guardVersion
      else s.line k := by
  cases hm : s.mData key with
  | some c =>
    have hd : s.mDeletedData key = none := s.disjoint key (by simp [hm])
    have hl : s.line key = .live c := line_eq_live.mpr hm
    by_cases ht : isTimeOut now c.deadline c.ttl
    · have he : s.evictKey db now key guardVersion = s.eraseData key := by
        simp [evictKey, readKV, hm, ht]
      simp [he, line_eraseData hd, hl, Line.evict, ht]
    · by_cases hv : c.version > guardVersion
      · have he : s.evictKey db now key guardVersion = s := by simp [evictKey, readKV, hm, ht, hv]
        by_cases hk : k = key <;> simp [he, hl, Line.evict, ht, hk, hv]
      · have he : s.evictKey db now key guardVersion = s.erase key := by
          simp [evictKey, readKV, hm, ht, hv]
        simp [he, line_erase, hl, Line.evict, ht, not_lt.mp hv]
  | none =>
    cases hd : s.mDeletedData key with
    | some v =>
      have hl : s.line key = .dead := by simp [line, hm, hd]
      have he : s.evictKey db now key guardVersion = s := by simp [evictKey, readKV, hm, hd]
      by_cases hk : k = key <;> simp [he, hl, Line.evict, hk]
    | none =>
      have hl : s.line key = .miss := line_eq_miss.mpr ⟨hm, hd⟩
      simp only [evictKey, readKV, hm, hd]
      split_ifs with _ _ hk hk hk <;> simp [hl, Line.evict, line_erase, hk]

theorem line_evictKV (keys : List KeyType) (guardVersion : ℕ) :
    (s.evictKV db now keys guardVersion).line k =
      if k ∈ keys then
        (s.line k).evict fun c => isTimeOut now c.deadline c.ttl || c.version ≤ guardVersion
      else s.line k := by
  induction keys generalizing s with
  | nil => rfl
  | cons key keys ih =>
    have hcons : s.evictKV db now (key :: keys) guardVersion =
        (s.evictKey db now key guardVersion).evictKV db now keys guardVersion := rfl
    rw [hcons, ih, line_evictKey]
    by_cases hk : k = key
    · subst hk
      simp [Line.evict_evict]
    · simp [hk]

end InMemoryKVStore

end Goblin.Store
