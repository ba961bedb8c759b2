import Goblin.Store.Expiry

/-! `readMeta` against `readKV`, and the metadata of the cache against those of RocksDB. -/
namespace Goblin.Store

open Model Lib List Option

namespace InMemoryKVStore

variable {s : InMemoryKVStore} {db : RocksDBKVStore} {now : ℕ} {key k : KeyType} {out : ReadOut}

variable {e : Event} {guardVersion : ℕ}

theorem mUdfMetaMap_apply_write {r : Record} (he : e.effect = some (key, some r)) : (e.apply s).mUdfMetaMap k =
      if k = key ∧ r.udfMeta.nonempty then some r.udfMeta else s.mUdfMetaMap k := by
  have hwrite (w : WriteEvent) (hw : (if w.mIsNoOp then none else some (w.mKey, some w.record)) =
      some (key, some r)) : (w.apply s).mUdfMetaMap k =
        if k = key ∧ r.udfMeta.nonempty then some r.udfMeta else s.mUdfMetaMap k := by
    split_ifs at hw with hn
    cases hw
    rw [WriteEvent.apply_memory w s (by simpa using hn)]
    by_cases hudf : w.mUdfMeta.nonempty <;> by_cases hk : k = w.mKey <;>
      simp [writeTTLKV, WriteEvent.record, hudf, hk]
  cases e with
  | read e => cases he
  | write e => exact hwrite e he
  | delete e => cases he
  | importKV e => exact hwrite e.mWriteEvent he

theorem mUdfMetaMap_apply_delete (he : e.effect = some (key, none)) (hk : k ≠ key) :
    (e.apply s).mUdfMetaMap k = s.mUdfMetaMap k := by
  cases e with
  | read e => cases he
  | write e | importKV e => simp only [Event.effect] at he; split_ifs at he; cases he
  | delete e =>
    cases he
    simp only [Event.apply, KVStore.deleteKV, deleteKV]
    split
    · rfl
    · simp [hk]

theorem mUdfMetaMap_of_not_touches (h : ¬ Touches Event.effect k e) :
    (e.apply s).mUdfMetaMap k = s.mUdfMetaMap k := by
  cases he : e.effect with
  | none => rw [apply_of_effect_none he]
  | some w =>
    obtain ⟨key, r⟩ := w
    have hk : k ≠ key := by
      rintro rfl
      exact h ⟨r, he⟩
    cases r with
    | none => exact mUdfMetaMap_apply_delete he hk
    | some r => simp [mUdfMetaMap_apply_write he, hk]

theorem line_of_not_touches (h : ¬ Touches Event.effect k e) : (e.apply s).line k = s.line k := by
  obtain ⟨hdata, hdeleted⟩ := @apply_of_not_touches s k e h
  simp only [line, hdata, hdeleted]

theorem readKV_state_udfMeta : (s.readKV db now key out).2.mUdfMetaMap = s.mUdfMetaMap := by
  unfold readKV
  split
  · split <;> rfl
  · split_ifs <;> rfl

theorem mUdfMetaMap_evictKey (h : ((s.evictKey db now key guardVersion).mData k).isSome) :
    (s.evictKey db now key guardVersion).mUdfMetaMap k = s.mUdfMetaMap k := by
  unfold evictKey at h ⊢
  dsimp only at h ⊢
  split_ifs at h ⊢
  · rw [readKV_state_udfMeta]
  · have hk : k ≠ key := by
      rintro rfl
      simp [erase] at h
    simp only [erase, Function.update_of_ne hk, readKV_state_udfMeta]
  · rw [readKV_state_udfMeta]

theorem mData_of_evictKey {c : Cell} (h : (s.evictKey db now key guardVersion).mData k = some c) :
      s.mData k = some c := by
  have hl := line_eq_live.mpr h
  rw [line_evictKey] at hl
  split_ifs at hl with hk
  · subst hk
    exact line_eq_live.mp (Line.eq_live_of_evict_eq_live hl)
  · exact line_eq_live.mp hl

theorem mData_of_evictKV {keys : List KeyType} {c : Cell} (h : (s.evictKV db now keys guardVersion).mData k = some c) :
    s.mData k = some c ∧ (s.evictKV db now keys guardVersion).mUdfMetaMap k = s.mUdfMetaMap k := by
  induction keys generalizing s with
  | nil => exact ⟨h, rfl⟩
  | cons key keys ih =>
    obtain ⟨hdata, hudf⟩ := ih h
    refine ⟨mData_of_evictKey hdata, hudf.trans (mUdfMetaMap_evictKey ?_)⟩
    rw [hdata]
    rfl

theorem mDeletedData_evictKV {keys : List KeyType} (h : ((s.evictKV db now keys guardVersion).mDeletedData k).isSome) :
    (s.mDeletedData k).isSome := by
  induction keys generalizing s with
  | nil => exact h
  | cons key keys ih =>
    have hkey := ih h
    unfold evictKey at hkey
    dsimp only at hkey
    split_ifs at hkey
    · rwa [readKV_state_deleted] at hkey
    · by_cases hk : k = key
      · simp [erase, hk] at hkey
      · simpa [erase, hk, readKV_state_deleted] using hkey
    · rwa [readKV_state_deleted] at hkey

end InMemoryKVStore

namespace TimedCache

variable {s t : TimedCache}

variable {key : KeyType}

/-- What has been found of a key is the version, the times to live and the user defined fields of the record. -/
structure Describes (found : Status × Meta) (r : Record) : Prop where
  isOK : found.1.isOK
  version : found.2.version = r.version
  ttl : found.2.ttl = r.ttl
  deadline : found.2.deadline = r.deadline
  udfMeta : found.2.udfMeta = r.toMeta.udfMeta

/-- `readMeta` finds what `readKV` finds, with the metadata of the latest write, and those are the
metadata of RocksDB once it has caught up. -/
def MetaAgrees (s : TimedCache) : Prop :=
  ∀ key out,
    ((s.mem.readMeta s.db key).1.isOK ↔ (s.mem.readKV s.db s.now key out).1.1.isOK) ∧
    ((s.mem.readMeta s.db key).1.isOK →
      (s.mem.readMeta s.db key).2.version = (s.mem.readKV s.db s.now key out).1.2.version ∧
      ∃ r, s.latest key = some r ∧ Describes (s.mem.readMeta s.db key) r) ∧
    (s.committed = s.events.length →
      ((s.db.readMeta key).1.isOK ↔ (s.mem.readMeta s.db key).1.isOK) ∧
      ∀ r, s.latest key = some r → Describes (s.db.readMeta key) r)

/-- No key is deleted whose meta RocksDB finds, and RocksDB takes over no such key that the cache has marked as
deleted. No record is written or becomes expired while it is the latest of its key. A write without
user defined fields finds none in the cache. The bytes of a record give its metadata back when it leaves the cache, and
when RocksDB has caught up with it. -/
def KeepsMeta (s : TimedCache) : Act → Prop
  | .execute e =>
    (∀ key, e.effect = some (key, none) → ∀ r, s.db.mRocksDB key = some r → r.parseMeta.1.isOK = false) ∧
    ∀ key r, e.effect = some (key, some r) → isTimeOut s.now r.deadline r.ttl = false ∧
      (r.udfMeta.nonempty = false → s.mem.mUdfMetaMap key = none)
  | .commit =>
    (∀ key, (s.mem.mDeletedData key).isSome → ∀ r, s.recordsAt s.applied key = some r → r.parseMeta.1.isOK = false) ∧
    (s.applied = s.events.length → ∀ key r, s.latest key = some r → Describes r.parseMeta r)
  | .tick now => ∀ key r, s.latest key = some r → isTimeOut now r.deadline r.ttl = false
  | .evict keys guardVersion => ∀ key ∈ keys, ∀ r, s.latest key = some r → r.version ≤ guardVersion →
      (s.mem.mData key).isSome → Describes r.parseMeta r
  | _ => True

structure Tracked (s : TimedCache) : Prop where
  inv : Inv s
  settled : ∀ key, s.mem.line key = .miss → ∀ p, s.committed ≤ p → p ≤ s.events.length →
    s.recordsAt p key = s.latest key
  udfMeta : ∀ key c r, s.mem.mData key = some c → s.latest key = some r →
    s.mem.mUdfMetaMap key = r.toMeta.udfMeta
  alive : ∀ key r, s.latest key = some r → isTimeOut s.now r.deadline r.ttl = false
  absent : ∀ key, (s.mem.mDeletedData key).isSome → ∀ r, s.db.mRocksDB key = some r → r.parseMeta.1.isOK = false
  parsed : ∀ key r, s.latest key = some r → s.mem.mData key = none ∨ s.committed = s.events.length →
    Describes r.parseMeta r

theorem Inv.exists_latest (h : Inv s) {c : Cell} (hc : s.mem.mData key = some c) :
    ∃ r, s.latest key = some r ∧ r.cell = c := by
  have hl : s.mem.line key = .live c := InMemoryKVStore.line_eq_live.mpr hc
  have hagrees := h.agrees key
  rw [hl] at hagrees
  exact map_eq_some_iff.mp (hagrees (by simp) none).symm

theorem Inv.latest_of_deleted (h : Inv s) (hd : (s.mem.mDeletedData key).isSome) (hm : s.mem.mData key = none) :
      s.latest key = none := by
  obtain ⟨v, hv⟩ := isSome_iff_exists.mp hd
  have hl : s.mem.line key = .dead := by simp [InMemoryKVStore.line, hm, hv]
  have hagrees := h.agrees key
  rw [hl] at hagrees
  have hnone : s.cellAt key s.events.length = none := (hagrees (by simp) none).symm
  exact map_eq_none_iff.mp hnone

theorem latest_execute_of_not_touches {e : Event} (he : ¬ Touches Event.effect key e) (mem : InMemoryKVStore) :
    latest { s with mem := mem, events := s.events ++ [e] } key = s.latest key := by
  have hlen : (s.events ++ [e]).length = s.events.length + 1 := by simp
  simp only [latest, hlen, recordsAt_execute_last, applyEffect_of_not_touches _ he]

theorem recordsAt_of_version {r : Record} {guardVersion : ℕ}
    (hguard : ∀ e ∈ s.events.drop s.committed, e.effect.isSome → guardVersion < e.version)
    (hr : s.latest key = some r) (hversion : r.version ≤ guardVersion) {p : ℕ} (hp : s.committed ≤ p) :
    s.recordsAt p key = s.latest key := by
  have hsplit : s.latest key = replay (s.recordsAt p) (s.events.drop p) key := by
    rw [recordsAt, ← replay_append, take_append_drop, latest, recordsAt, take_length]
  have hreplay : replay (s.recordsAt p) (s.events.drop p) key = some r := hsplit ▸ hr
  rcases not_touches_or_exists_of_replayOn _ hreplay with ⟨hrecord, -⟩ | ⟨e, he, heff⟩
  · rw [hrecord, hr]
  · have hmem : e ∈ s.events.drop s.committed := (drop_sublist_drop_left _ hp).subset he
    have hlt := hguard e hmem (by rw [heff]; rfl)
    rw [Event.version_of_effect heff] at hversion
    omega

namespace Tracked

theorem rocksDB_of_miss (h : Tracked s) {key : KeyType} (hl : s.mem.line key = .miss) :
    s.db.mRocksDB key = s.latest key := by
  rw [h.inv.flushed]
  exact h.settled key hl s.committed le_rfl h.inv.committed_le_length

/-- What `readMeta` answers, however the line of the key stands. -/
theorem readMeta_spec (h : Tracked s) (key : KeyType) :
    match s.latest key with
    | some r => Describes (s.mem.readMeta s.db key) r
    | none => (s.mem.readMeta s.db key).1.isOK = false := by
  cases hm : s.mem.mData key with
  | some c =>
    obtain ⟨r, hr, rfl⟩ := h.inv.exists_latest hm
    have hudf := h.udfMeta key r.cell r hm hr
    simp only [InMemoryKVStore.readMeta, hm, hr, hudf]
    exact ⟨rfl, rfl, rfl, rfl, rfl⟩
  | none =>
    simp only [InMemoryKVStore.readMeta, hm, RocksDBKVStore.readMeta, h.inv.noError key]
    cases hd : s.mem.mDeletedData key with
    | none =>
      rw [h.rocksDB_of_miss (InMemoryKVStore.line_eq_miss.mpr ⟨hm, hd⟩)]
      cases hr : s.latest key with
      | none => rfl
      | some r => exact h.parsed key r hr (.inl hm)
    | some v =>
      have hd' : (s.mem.mDeletedData key).isSome := by rw [hd]; rfl
      rw [h.inv.latest_of_deleted hd' hm]
      cases hr : s.db.mRocksDB key with
      | none => rfl
      | some r => exact h.absent key hd' r hr

theorem visible_read (h : Tracked s) (key : KeyType) :
    visible s.now ((s.mem.line key).read (s.db.cell key)) = (s.latest key).map Record.cell := by
  have hread : (s.mem.line key).read (s.db.cell key) = (s.latest key).map Record.cell := by
    by_cases hl : s.mem.line key = .miss
    · rw [hl, Line.read, RocksDBKVStore.cell, h.rocksDB_of_miss hl]
    · exact h.inv.agrees key hl _
  rw [hread]
  cases hr : s.latest key with
  | none => rfl
  | some r => simp [visible, Record.cell, h.alive key r hr]

theorem metaAgrees (h : Tracked s) : s.MetaAgrees := by
  intro key out
  have hstatus := @InMemoryKVStore.readKV_status s.mem s.db s.now key out (h.inv.noError key)
  have hmeta := h.readMeta_spec key
  have hvisible := h.visible_read key
  cases hr : s.latest key with
  | none =>
    rw [hr, map_none] at hvisible
    rw [hvisible] at hstatus
    simp only [hr] at hmeta
    refine ⟨?_, ?_, fun hall => ⟨?_, nofun⟩⟩
    · rw [hmeta, hstatus]
      rfl
    · intro hok
      rw [hmeta] at hok
      cases hok
    · rw [hmeta]
      simp [RocksDBKVStore.readMeta, h.inv.noError key, h.inv.flushed, hall, show
        s.recordsAt s.events.length key = none from hr]
  | some r =>
    rw [hr, map_some] at hvisible
    obtain ⟨-, hversion⟩ := @InMemoryKVStore.readKV_out s.mem s.db s.now key out (h.inv.noError key) _ hvisible
    rw [hvisible] at hstatus
    simp only [hr] at hmeta
    refine ⟨?_, fun _ => ?_, fun hall => ?_⟩
    · rw [hstatus]
      exact iff_of_true hmeta.isOK rfl
    · rw [hversion]
      exact ⟨hmeta.version, r, rfl, hmeta⟩
    · have hdb : s.db.readMeta key = r.parseMeta := by
        simp [RocksDBKVStore.readMeta, h.inv.noError key, h.inv.flushed, hall, show
          s.recordsAt s.events.length key = some r from hr]
      have hparsed := h.parsed key r hr (.inr hall)
      rw [hdb]
      refine ⟨iff_of_true hparsed.isOK hmeta.isOK, fun r' hr' => ?_⟩
      cases hr'
      exact hparsed

theorem settled_execute (h : Tracked s) {e : Event} (hG : s.KeepsMeta (.execute e)) {key : KeyType}
    (hmiss : (e.apply s.mem).line key = .miss) {p : ℕ} (hp : s.committed ≤ p)
    (hpn : p ≤ s.events.length) :
    s.recordsAt p key = latest { s with mem := e.apply s.mem, events := s.events ++ [e] } key := by
  by_cases htouch : Touches Event.effect key e
  · obtain ⟨r, he⟩ := htouch
    rw [InMemoryKVStore.line_apply he, if_pos rfl] at hmiss
    cases r with
    | some r => cases hmiss
    | none =>
      have hl : s.mem.line key = .miss := by
        cases hl : s.mem.line key with
        | miss => rfl
        | live c => simp [hl, Line.apply, Line.delete] at hmiss
        | dead => simp [hl, Line.apply, Line.delete] at hmiss
      rw [h.settled key hl p hp hpn, latest_execute_of_effect he, if_pos rfl]
      cases hr : s.latest key with
      | none => rfl
      | some r =>
        -- the record that the delete misses is in RocksDB, and its bytes can be read
        have hok := (h.parsed key r hr (.inl (InMemoryKVStore.line_eq_miss.mp hl).1)).isOK
        rw [hG.1 key he r ((h.rocksDB_of_miss hl).trans hr)] at hok
        cases hok
  · rw [InMemoryKVStore.line_of_not_touches htouch] at hmiss
    rw [latest_execute_of_not_touches htouch]
    exact h.settled key hmiss p hp hpn

theorem execute (h : Tracked s) {e : Event} (hG : s.KeepsMeta (.execute e)) :
    Tracked { s with mem := e.apply s.mem, events := s.events ++ [e] } where
  inv := h.inv.execute e
  settled := by
    intro key hmiss p hp hpn
    by_cases hle : p ≤ s.events.length
    · rw [recordsAt_execute _ hle]
      exact h.settled_execute hG hmiss hp hle
    · have hlast : p = (s.events ++ [e]).length := by
        simp only [length_append, length_singleton] at hpn ⊢
        omega
      subst hlast
      rfl
  udfMeta := by
    intro key c r hc hr
    by_cases htouch : Touches Event.effect key e
    · obtain ⟨r', he⟩ := htouch
      rw [latest_execute_of_effect he, if_pos rfl] at hr
      subst hr
      obtain ⟨-, hudf⟩ := hG.2 key r he
      simp only [InMemoryKVStore.mUdfMetaMap_apply_write he, Record.toMeta]
      cases hn : r.udfMeta.nonempty with
      | true => simp
      | false => simp [hudf hn]
    · rw [latest_execute_of_not_touches htouch] at hr
      simp only [(InMemoryKVStore.apply_of_not_touches htouch).1] at hc
      simp only [InMemoryKVStore.mUdfMetaMap_of_not_touches htouch]
      exact h.udfMeta key c r hc hr
  alive := by
    intro key r hr
    by_cases htouch : Touches Event.effect key e
    · obtain ⟨r', he⟩ := htouch
      rw [latest_execute_of_effect he, if_pos rfl] at hr
      subst hr
      exact (hG.2 key r he).1
    · rw [latest_execute_of_not_touches htouch] at hr
      exact h.alive key r hr
  absent := by
    intro key hd
    by_cases htouch : Touches Event.effect key e
    · obtain ⟨r, he⟩ := htouch
      cases r with
      | none => exact hG.1 key he
      | some r =>
        -- a write takes the deletion record away
        have hl := @InMemoryKVStore.line_apply s.mem key key e (some r) he
        rw [if_pos rfl] at hl
        have hlive := InMemoryKVStore.line_eq_live.mp hl
        have hnone := (e.apply s.mem).disjoint key (by rw [hlive]; rfl)
        simp only [hnone] at hd
        cases hd
    · simp only [(InMemoryKVStore.apply_of_not_touches htouch).2] at hd
      exact h.absent key hd
  parsed := by
    intro key r hr hout
    have hlate : s.committed ≠ (s.events ++ [e]).length := by
      have hle := h.inv.committed_le_length
      simp only [length_append, length_singleton]
      omega
    have hnone := hout.resolve_right hlate
    by_cases htouch : Touches Event.effect key e
    · obtain ⟨r', he⟩ := htouch
      rw [latest_execute_of_effect he, if_pos rfl] at hr
      subst hr
      have hl := @InMemoryKVStore.line_apply s.mem key key e (some r) he
      rw [if_pos rfl] at hl
      simp only [InMemoryKVStore.line_eq_live.mp hl] at hnone
      cases hnone
    · rw [latest_execute_of_not_touches htouch] at hr
      simp only [(InMemoryKVStore.apply_of_not_touches htouch).1] at hnone
      exact h.parsed key r hr (.inl hnone)

theorem commit (h : Tracked s) (hG : s.KeepsMeta .commit) :
    Tracked { s with db := s.db.commit s.applied, committed := s.applied } :=
  { h with
    inv := h.inv.commit
    settled := fun key hmiss p hp => h.settled key hmiss p (Nat.le_trans h.inv.committed_le hp)
    absent := fun key hd r hr => hG.1 key hd r ((congrFun h.inv.batched key).symm.trans hr)
    parsed := fun key r hr hout => hout.elim (fun hm => h.parsed key r hr (.inl hm)) fun hall => hG.2 hall key r hr }

theorem apply (h : Tracked s) {e : Event} (he : s.events[s.applied]? = some e) :
    Tracked { s with db := e.apply s.db, applied := s.applied + 1 } :=
  { h with
    inv := h.inv.apply he
    absent := by
      rw [Event.apply_rocksDB]
      exact h.absent }

/-- Evicted records are in RocksDB. -/
theorem settled_evict (h : Tracked s) {keys : List KeyType} {guardVersion : ℕ}
    (hguard : ∀ e ∈ s.events.drop s.committed, e.effect.isSome → guardVersion < e.version) {key : KeyType}
    (hmiss : (s.mem.evictKV s.db s.now keys guardVersion).line key = .miss) {p : ℕ} (hp : s.committed ≤ p)
    (hpn : p ≤ s.events.length) :
    s.recordsAt p key = s.latest key ∧ ∀ c, s.mem.mData key = some c → key ∈ keys ∧ c.version ≤ guardVersion := by
  have hlive (c : Cell) (hc : s.mem.mData key = some c) : key ∈ keys ∧ c.version ≤ guardVersion := by
    have hl := InMemoryKVStore.line_eq_live.mpr hc
    obtain ⟨r, hr, rfl⟩ := h.inv.exists_latest hc
    simp only [InMemoryKVStore.line_evictKV, hl] at hmiss
    split_ifs at hmiss with hkey
    exact ⟨hkey, of_decide_eq_true (by simpa [Line.evict, Record.cell, h.alive key r hr] using hmiss)⟩
  refine ⟨?_, hlive⟩
  cases hl : s.mem.line key with
  | miss => exact h.settled key hl p hp hpn
  | dead =>
    simp only [InMemoryKVStore.line_evictKV, hl] at hmiss
    split_ifs at hmiss
    cases hmiss
  | live c =>
    have hc := InMemoryKVStore.line_eq_live.mp hl
    obtain ⟨r, hr, rfl⟩ := h.inv.exists_latest hc
    exact recordsAt_of_version hguard hr (hlive r.cell hc).2 hp

theorem line_of_evicted {keys : List KeyType} {guardVersion : ℕ} {key : KeyType}
    (hm : (s.mem.evictKV s.db s.now keys guardVersion).mData key = none) (hc : (s.mem.mData key).isSome) :
    (s.mem.evictKV s.db s.now keys guardVersion).line key = .miss := by
  refine InMemoryKVStore.line_eq_miss.mpr ⟨hm, ?_⟩
  by_contra hd
  have hsome := InMemoryKVStore.mDeletedData_evictKV (isSome_iff_ne_none.mpr hd)
  rw [s.mem.disjoint key hc] at hsome
  cases hsome

theorem evict (h : Tracked s) {keys : List KeyType} {guardVersion : ℕ}
    (hguard : ∀ e ∈ s.events.drop s.committed, e.effect.isSome → guardVersion < e.version)
    (hG : s.KeepsMeta (.evict keys guardVersion)) :
    Tracked { s with mem := s.mem.evictKV s.db s.now keys guardVersion } where
  inv := h.inv.evict keys guardVersion
  settled := fun key hmiss p hp hpn => (h.settled_evict hguard hmiss hp hpn).1
  udfMeta := by
    intro key c r hc hr
    obtain ⟨hdata, hudf⟩ := InMemoryKVStore.mData_of_evictKV hc
    exact hudf.trans (h.udfMeta key c r hdata hr)
  alive := h.alive
  absent := fun key hd => h.absent key (InMemoryKVStore.mDeletedData_evictKV hd)
  parsed := by
    intro key r hr hout
    obtain hm | hall := hout
    · cases hc : s.mem.mData key with
      | none => exact h.parsed key r hr (.inl hc)
      | some c =>
        have hsome : (s.mem.mData key).isSome := by rw [hc]; rfl
        have hmiss := line_of_evicted hm hsome
        obtain ⟨hkey, hversion⟩ := (h.settled_evict hguard hmiss le_rfl h.inv.committed_le_length).2 c hc
        obtain ⟨r', hr', rfl⟩ := h.inv.exists_latest hc
        obtain rfl : r = r' := Option.some.inj (hr.symm.trans hr')
        exact hG key hkey r hr hversion hsome
    · exact h.parsed key r hr (.inr hall)

theorem read (h : Tracked s) (key : KeyType) :
    Tracked { s with mem := (s.mem.readKV s.db s.now key {}).2 } := by
  have hsame : (s.mem.readKV s.db s.now key {}).2 = s.mem := by
    refine InMemoryKVStore.readKV_state_of_alive fun c hc => ?_
    obtain ⟨r, hr, rfl⟩ := h.inv.exists_latest hc
    exact h.alive key r hr
  rw [hsame]
  exact h

theorem step (h : Tracked s) {a : Act} (ht : step s a = some t) (hG : s.KeepsMeta a) : Tracked t := by
  cases a with
  | execute e =>
    cases ht
    exact h.execute hG
  | apply =>
    obtain ⟨e, he, rfl⟩ := map_eq_some_iff.mp ht
    exact h.apply he
  | commit =>
    cases ht
    exact h.commit hG
  | evict keys guardVersion =>
    simp only [TimedCache.step] at ht
    split_ifs at ht with hguard
    cases ht
    exact h.evict hguard hG
  | read key =>
    cases ht
    exact h.read key
  | tick now =>
    have hinv := h.inv.step ht
    simp only [TimedCache.step] at ht
    split_ifs at ht
    cases ht
    exact ⟨hinv, h.settled, h.udfMeta, hG, h.absent, h.parsed⟩

end Tracked

theorem MetaAgrees.of_rocksDB (h : t.MetaAgrees) (hinv : Inv t) {r : Record} (hm : t.mem.mData key = none)
    (hr : t.db.mRocksDB key = some r)
    (hok : r.parseMeta.1.isOK ∨ (t.mem.readKV t.db t.now key {}).1.1.isOK) :
    (t.mem.readKV t.db t.now key {}).1.1.isOK ∧ ∃ r', t.latest key = some r' ∧ Describes r.parseMeta r' := by
  obtain ⟨hiff, hfound, -⟩ := h key {}
  have hmeta : t.mem.readMeta t.db key = r.parseMeta := by
    simp [InMemoryKVStore.readMeta, RocksDBKVStore.readMeta, hm, hinv.noError key, hr]
  rw [hmeta] at hiff hfound
  have hfinds : r.parseMeta.1.isOK := hok.elim id hiff.mpr
  obtain ⟨-, r', hr', hdescribes⟩ := hfound hfinds
  exact ⟨hiff.mp hfinds, r', hr', hdescribes⟩

theorem MetaAgrees.of_mem (h : t.MetaAgrees) {r : Record} (hm : t.mem.mData key = some r.cell)
    (hr : t.latest key = some r) :
    isTimeOut t.now r.deadline r.ttl = false ∧ t.mem.mUdfMetaMap key = r.toMeta.udfMeta := by
  obtain ⟨hiff, hfound, -⟩ := h key {}
  have hmeta : t.mem.readMeta t.db key =
      (.ok, ⟨r.version, r.ttl, r.deadline, r.updateTime, t.mem.mUdfMetaMap key⟩) := by
    simp only [InMemoryKVStore.readMeta, hm]
    rfl
  have hok : (t.mem.readMeta t.db key).1.isOK := by rw [hmeta]; rfl
  refine ⟨?_, ?_⟩
  · have hread := hiff.mp hok
    by_contra hout
    have hout' : isTimeOut t.now r.cell.deadline r.cell.ttl = true := by simpa [Record.cell] using hout
    simp [InMemoryKVStore.readKV, hm, hout'] at hread
  · obtain ⟨-, r', hr', hdescribes⟩ := hfound hok
    obtain rfl : r = r' := Option.some.inj (hr.symm.trans hr')
    have hudf := hdescribes.udfMeta
    rw [hmeta] at hudf
    exact hudf

theorem Tracked.keepsMeta_execute (h : Tracked s) {e : Event}
    (hagrees : MetaAgrees { s with mem := e.apply s.mem, events := s.events ++ [e] }) :
    s.KeepsMeta (.execute e) := by
  have hinv := h.inv.execute e
  refine ⟨fun key he => ?_, fun key r he => ?_⟩
  · -- a deleted key that RocksDB holds is found there, although its latest event is the delete
    intro r hr
    by_contra hok
    have hm : (e.apply s.mem).mData key = none := by
      by_contra hsome
      obtain ⟨c, hc⟩ := ne_none_iff_exists'.mp hsome
      have hl := InMemoryKVStore.line_eq_live.mpr hc
      rw [InMemoryKVStore.line_apply he, if_pos rfl] at hl
      cases hl' : s.mem.line key <;> simp [hl', Line.apply, Line.delete] at hl
    obtain ⟨-, r', hr', -⟩ := hagrees.of_rocksDB hinv hm hr (.inl (by simpa using hok))
    rw [latest_execute_of_effect he, if_pos rfl] at hr'
    cases hr'
  · have hl := @InMemoryKVStore.line_apply s.mem key key e (some r) he
    rw [if_pos rfl] at hl
    have hlatest := @latest_execute_of_effect s e key (some r) he (e.apply s.mem) key
    rw [if_pos rfl] at hlatest
    obtain ⟨hout, hudf⟩ := hagrees.of_mem (InMemoryKVStore.line_eq_live.mp hl) hlatest
    refine ⟨hout, fun hn => ?_⟩
    simpa [InMemoryKVStore.mUdfMetaMap_apply_write he, Record.toMeta, hn] using hudf

theorem Tracked.keepsMeta_of_metaAgrees (h : Tracked s) {a : Act} (ht : TimedCache.step s a = some t)
    (hagrees : t.MetaAgrees) : s.KeepsMeta a := by
  have hinv : Inv t := h.inv.step ht
  cases a with
  | execute e =>
    cases ht
    exact h.keepsMeta_execute hagrees
  | apply => trivial
  | commit =>
    cases ht
    refine ⟨fun key hd r hr => ?_, fun hall key r hr => ?_⟩
    · by_contra hok
      have hm : s.mem.mData key = none := by
        by_contra hsome
        have hnone := s.mem.disjoint key (isSome_iff_ne_none.mpr hsome)
        simp [hnone] at hd
      obtain ⟨-, r', hr', -⟩ := hagrees.of_rocksDB hinv hm ((congrFun h.inv.batched key).trans hr)
        (.inl (by simpa using hok))
      have hgone : s.latest key = none := h.inv.latest_of_deleted hd hm
      cases hgone.symm.trans hr'
    · have hdb : (s.db.commit s.applied).readMeta key = r.parseMeta := by
        have hrecord : (s.db.commit s.applied).mRocksDB key = some r := by
          refine (congrFun h.inv.batched key).trans ?_
          rw [hall]
          exact hr
        have hnone : (s.db.commit s.applied).mGetError key = none := hinv.noError key
        simp [RocksDBKVStore.readMeta, hnone, hrecord]
      exact hdb ▸ ((hagrees key {}).2.2 hall).2 r hr
  | evict keys guardVersion =>
    simp only [TimedCache.step] at ht
    split_ifs at ht with hguard
    cases ht
    intro key hkey r hr hversion hc
    obtain ⟨c, hc'⟩ := isSome_iff_exists.mp hc
    have hl := InMemoryKVStore.line_eq_live.mpr hc'
    obtain ⟨r', hr', rfl⟩ := h.inv.exists_latest hc'
    obtain rfl : r = r' := Option.some.inj (hr.symm.trans hr')
    have hmiss : (s.mem.evictKV s.db s.now keys guardVersion).line key = .miss := by
      rw [InMemoryKVStore.line_evictKV, if_pos hkey, hl]
      simp [Line.evict, Record.cell, hversion]
    obtain ⟨hm, hd⟩ := InMemoryKVStore.line_eq_miss.mp hmiss
    have hrecord : s.db.mRocksDB key = some r := by
      rw [h.inv.flushed, (h.settled_evict hguard hmiss le_rfl h.inv.committed_le_length).1, hr]
    have hread : ((s.mem.evictKV s.db s.now keys guardVersion).readKV s.db s.now key {}).1.1.isOK := by
      simp [InMemoryKVStore.readKV, RocksDBKVStore.readKV, hm, hd, h.inv.noError key, hrecord, h.alive key r hr]
    obtain ⟨-, r', hr', hdescribes⟩ := hagrees.of_rocksDB hinv hm hrecord (.inr hread)
    cases hr.symm.trans hr'
    exact hdescribes
  | read key => trivial
  | tick now =>
    simp only [TimedCache.step] at ht
    split_ifs at ht
    cases ht
    intro key r hr
    cases hm : s.mem.mData key with
    | some c =>
      obtain ⟨r', hr', rfl⟩ := h.inv.exists_latest hm
      obtain rfl : r = r' := Option.some.inj (hr.symm.trans hr')
      exact (hagrees.of_mem hm hr).1
    | none =>
      cases hd : s.mem.mDeletedData key with
      | some v =>
        have hgone := h.inv.latest_of_deleted (by rw [hd]; rfl) hm
        cases hgone.symm.trans hr
      | none =>
        have hdb : s.db.mRocksDB key = some r :=
          (h.rocksDB_of_miss (InMemoryKVStore.line_eq_miss.mpr ⟨hm, hd⟩)).trans hr
        obtain ⟨hok, -⟩ := hagrees.of_rocksDB hinv hm hdb (.inl (h.parsed key r hr (.inl hm)).isOK)
        by_contra hout
        rw [Bool.not_eq_false] at hout
        simp [InMemoryKVStore.readKV, RocksDBKVStore.readKV, hm, hd, h.inv.noError key, hdb, hout] at hok

theorem tracked_init : Tracked {} where
  inv := inv_init
  settled := fun _ _ _ _ hp => by
    obtain rfl := Nat.le_zero.mp hp
    rfl
  udfMeta := fun _ _ _ hc => by cases hc
  alive := fun _ _ hr => by cases hr
  absent := fun _ hd => by cases hd
  parsed := fun _ _ hr => by cases hr

/-- The metadata agree in every state that a run reaches exactly when each of its steps keeps them. -/
theorem metaAgrees_iff_keepsMeta (acts : List Act) :
    (∀ pre t, pre <+: acts → exec step {} pre = some t → t.MetaAgrees) ↔
      Meets step KeepsMeta {} acts :=
  (meets_iff_forall_reached (fun _ h => h.metaAgrees) (fun _ _ _ h ht hG => h.step ht hG)
    (fun _ _ _ h ht hagrees => h.keepsMeta_of_metaAgrees ht hagrees) tracked_init acts).symm

/-- A key that RocksDB holds is deleted: `readKV` stops at the deletion record, `readMeta` does not. -/
def deleteFlushed : List Act :=
  [.execute (.write { mKey := "k", mValue := "v", mVersion := 1 }), .apply, .commit,
    .execute (.delete ⟨"k", "v", 1, 2⟩)]

theorem deleteFlushed_disagrees : ∃ t, exec step {} deleteFlushed = some t ∧
    (t.mem.readKV t.db t.now "k" {}).1.1 = .notFound ("k" ++ " not found") ∧
    t.mem.readMeta t.db "k" = (.ok, { version := 1 }) ∧ ¬ t.MetaAgrees := by
  refine ⟨_, rfl, rfl, rfl, fun h => ?_⟩
  have hok : (Status.notFound ("k" ++ " not found")).isOK := (h "k" {}).1.mp rfl
  cases hok

end TimedCache

end Goblin.Store
