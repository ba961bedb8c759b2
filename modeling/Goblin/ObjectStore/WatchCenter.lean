import Goblin.Model.Event

/-! `WatchCenter`: the queues into which RocksDB puts the changes of watched keys. -/
namespace Goblin.ObjectStore

open Model List Function

abbrev WatchIdType := String

structure WatchEntry where
  mKey : KeyType
  mValue : ValueType
  mVersion : ℕ
  mRecordVersion : ℕ
  mExists : Bool
  deriving DecidableEq, Repr

structure WatchEntryWrap where
  mWatchId : WatchIdType
  mEntries : List WatchEntry := []
  deriving DecidableEq, Repr

/-- A key without an entry in the map is one with no wraps. -/
structure WatchCenter where
  mKey2WatchEntryMap : KeyType → List WatchEntryWrap := fun _ => []
  mWatchId2KeyMap : WatchIdType → Option (List KeyType) := fun _ => none

namespace WatchCenter

def setWraps (c : WatchCenter) (key : KeyType) (wraps : List WatchEntryWrap) : WatchCenter :=
  { c with mKey2WatchEntryMap := update c.mKey2WatchEntryMap key wraps }

def addWrap (watchId : WatchIdType) (c : WatchCenter) (key : KeyType) : WatchCenter :=
  c.setWraps key (c.mKey2WatchEntryMap key ++ [{ mWatchId := watchId }])

/-- A key that is listed twice gets two wraps. -/
def registerWatch (c : WatchCenter) (watchId : WatchIdType) (keyVector : List KeyType) : WatchCenter :=
  let c := keyVector.foldl (addWrap watchId) c
  { c with mWatchId2KeyMap := update c.mWatchId2KeyMap watchId (some keyVector) }

def eraseWrap (watchId : WatchIdType) (c : WatchCenter) (key : KeyType) : WatchCenter :=
  c.setWraps key ((c.mKey2WatchEntryMap key).eraseP (·.mWatchId = watchId))

def unRegisterWatch (c : WatchCenter) (watchId : WatchIdType) : Option WatchCenter :=
  (c.mWatchId2KeyMap watchId).map fun keys =>
    let c := keys.foldl (eraseWrap watchId) c
    { c with mWatchId2KeyMap := update c.mWatchId2KeyMap watchId none }

/-- The wraps of a watch for a key. -/
def slot (c : WatchCenter) (watchId : WatchIdType) (key : KeyType) : List WatchEntryWrap :=
  (c.mKey2WatchEntryMap key).filter (·.mWatchId = watchId)

/-- What waits there to be purged. -/
def pending (c : WatchCenter) (watchId : WatchIdType) (key : KeyType) : List WatchEntry :=
  (c.slot watchId key).flatMap WatchEntryWrap.mEntries

/-- The part of `purgeWatchValue` for one key. -/
def purgeKey (c : WatchCenter) (watchId : WatchIdType) (key : KeyType) : WatchCenter :=
  c.setWraps key ((c.mKey2WatchEntryMap key).map fun e =>
    if e.mWatchId = watchId then { e with mEntries := [] } else e)

/-- `onWriteValue` and `onDeleteKey` -/
def notify (c : WatchCenter) (entry : WatchEntry) : WatchCenter :=
  c.setWraps entry.mKey ((c.mKey2WatchEntryMap entry.mKey).map fun s =>
    { s with mEntries := s.mEntries ++ [entry] })

end WatchCenter

/-- What a write tells the observers of RocksDB; `writeTTLKV` tells them nothing. -/
def writeNotification (e : WriteEvent) : Option WatchEntry :=
  if e.mIsNoOp ∨ e.mEnableTTL then none else some ⟨e.mKey, e.mValue, e.mVersion, e.mVersion, true⟩

def notification : Event → Option WatchEntry
  | .read _ => none
  | .write e => writeNotification e
  | .delete e => some ⟨e.mKey, "", e.mDeletedVersion, e.mVersion, false⟩
  | .importKV e => writeNotification e.mWriteEvent

def writeChange (e : WriteEvent) : Option WatchEntry :=
  if e.mIsNoOp then none else some ⟨e.mKey, e.mValue, e.mVersion, e.mVersion, true⟩

/-- The change that an event makes, as a watch should report it. -/
def changeOf : Event → Option WatchEntry
  | .read _ => none
  | .write e => writeChange e
  | .delete e => some ⟨e.mKey, "", e.mDeletedVersion, e.mVersion, false⟩
  | .importKV e => writeChange e.mWriteEvent

namespace WatchCenter

variable {c : WatchCenter} {id id' : WatchIdType} {key k : KeyType}

theorem slot_setWraps (wraps : List WatchEntryWrap) : (c.setWraps key wraps).slot id k =
    if k = key then wraps.filter (·.mWatchId = id) else c.slot id k := by
  by_cases h : k = key
  · subst h
    simp [slot, setWraps]
  · simp [slot, setWraps, h]

theorem slot_notify (entry : WatchEntry) : (c.notify entry).slot id k =
    if k = entry.mKey then (c.slot id k).map fun s => { s with mEntries := s.mEntries ++ [entry] }
    else c.slot id k := by
  rw [notify, slot_setWraps]
  split_ifs with h
  · subst h
    simp [slot, filter_map, Function.comp_def]
  · rfl

theorem slot_purgeKey : (c.purgeKey id' key).slot id k =
    if k = key ∧ id = id' then (c.slot id k).map fun s => { s with mEntries := [] } else c.slot id k := by
  rw [purgeKey, slot_setWraps]
  by_cases h : k = key
  · subst h
    have hkeep (e : WatchEntryWrap) : (if e.mWatchId = id' then { e with mEntries := [] } else e).mWatchId =
        e.mWatchId := by
      split_ifs <;> rfl
    have hmem {e : WatchEntryWrap} (he : e ∈ c.slot id k) : e.mWatchId = id := by
      simpa using (mem_filter.mp he).2
    simp only [true_and, if_true, filter_map, Function.comp_def, hkeep]
    split_ifs with hid
    · exact map_congr_left fun e he => if_pos ((hmem he).trans hid)
    · exact (map_congr_left fun e he => if_neg (hmem he ▸ hid)).trans (map_id _)
  · simp [h]

theorem slot_addWrap : (c.addWrap id' key).slot id k =
    c.slot id k ++ (if k = key ∧ id = id' then [{ mWatchId := id }] else []) := by
  rw [addWrap, slot_setWraps]
  by_cases h : k = key
  · subst h
    by_cases hid : id = id'
    · simp [slot, hid]
    · simp [slot, hid, Ne.symm hid]
  · simp [h]

theorem slot_eraseWrap : (c.eraseWrap id' key).slot id k =
    if k = key ∧ id = id' then (c.slot id k).tail else c.slot id k := by
  have herase (l : List WatchEntryWrap) : (l.eraseP (·.mWatchId = id')).filter (·.mWatchId = id) =
      if id = id' then (l.filter (·.mWatchId = id)).tail else l.filter (·.mWatchId = id) := by
    induction l with
    | nil => simp
    | cons e l ih =>
      by_cases he : e.mWatchId = id'
      · by_cases hid : id = id'
        · simp [he, hid]
        · simp [he, hid, Ne.symm hid]
      · rw [eraseP_cons_of_neg (by simpa using he), filter_cons, filter_cons, ih]
        by_cases hid : id = id'
        · simp [hid, he]
        · simp [hid]
  rw [eraseWrap, slot_setWraps, herase]
  by_cases h : k = key
  · subst h
    simp [slot]
  · simp [h]

/-- Every listing of a key by a watch has a wrap. -/
def Sound (c : WatchCenter) : Prop :=
  ∀ id key, (c.slot id key).length = ((c.mWatchId2KeyMap id).getD []).count key

theorem slot_registerWatch (keys : List KeyType) : (c.registerWatch id' keys).slot id k =
    c.slot id k ++ if id = id' then List.replicate (keys.count k) { mWatchId := id } else [] := by
  change (keys.foldl (addWrap id') c).slot id k = _
  induction keys generalizing c with
  | nil => simp
  | cons key keys ih =>
    rw [foldl_cons, ih, slot_addWrap, count_cons]
    by_cases hid : id = id'
    · by_cases hk : k = key
      · simp [hid, hk, replicate_succ]
      · simp [hid, hk, Ne.symm hk]
    · simp [hid]

theorem slot_unRegisterWatch {c' : WatchCenter} (h : c.unRegisterWatch id' = some c') : c'.slot id k =
    if id = id' then (c.slot id k).drop (((c.mWatchId2KeyMap id').getD []).count k) else c.slot id k := by
  obtain ⟨keys, hkeys, rfl⟩ := Option.map_eq_some_iff.mp h
  rw [hkeys, Option.getD_some]
  clear hkeys h
  change (keys.foldl (eraseWrap id') c).slot id k = _
  induction keys generalizing c with
  | nil => simp
  | cons key keys ih =>
    rw [foldl_cons, ih, slot_eraseWrap, count_cons]
    by_cases hid : id = id'
    · by_cases hk : k = key
      · simp [hid, hk]
      · simp [hid, hk, Ne.symm hk]
    · simp [hid]

@[simp] theorem mWatchId2KeyMap_registerWatch (keys : List KeyType) : (c.registerWatch id keys).mWatchId2KeyMap =
    update c.mWatchId2KeyMap id (some keys) := by
  have hfold : (keys.foldl (addWrap id) c).mWatchId2KeyMap = c.mWatchId2KeyMap := by
    induction keys generalizing c with
    | nil => rfl
    | cons key keys ih => exact ih
  simp [registerWatch, hfold]

theorem mWatchId2KeyMap_unRegisterWatch {c' : WatchCenter} (h : c.unRegisterWatch id = some c') :
    c'.mWatchId2KeyMap = update c.mWatchId2KeyMap id none := by
  obtain ⟨keys, -, rfl⟩ := Option.map_eq_some_iff.mp h
  have hfold : (keys.foldl (eraseWrap id) c).mWatchId2KeyMap = c.mWatchId2KeyMap := by
    clear h
    induction keys generalizing c with
    | nil => rfl
    | cons key keys ih => exact ih
  simp [hfold]

theorem Sound.registerWatch (h : c.Sound) (hid : c.mWatchId2KeyMap id' = none) (keys : List KeyType) :
    (c.registerWatch id' keys).Sound := by
  intro id k
  rw [slot_registerWatch, mWatchId2KeyMap_registerWatch, length_append, h id k]
  by_cases hid' : id = id'
  · subst hid'
    simp [hid]
  · simp [hid']

theorem Sound.unRegisterWatch {c' : WatchCenter} (h : c.Sound) (hc : c.unRegisterWatch id' = some c') :
    c'.Sound := by
  intro id k
  rw [slot_unRegisterWatch hc, mWatchId2KeyMap_unRegisterWatch hc]
  by_cases hid : id = id'
  · subst hid
    simp [h id k]
  · simp [hid, h id k]

theorem Sound.notify (h : c.Sound) (entry : WatchEntry) : (c.notify entry).Sound := by
  intro id k
  rw [slot_notify]
  refine Eq.trans ?_ (h id k)
  split_ifs <;> simp

theorem Sound.purgeKey (h : c.Sound) : (c.purgeKey id' key).Sound := by
  intro id k
  rw [slot_purgeKey]
  refine Eq.trans ?_ (h id k)
  split_ifs <;> simp

theorem pending_registerWatch (keys : List KeyType) :
    (c.registerWatch id' keys).pending id k = c.pending id k := by
  rw [pending, slot_registerWatch]
  split_ifs <;> simp [pending]

theorem pending_purgeKey : (c.purgeKey id' key).pending id k =
    if k = key ∧ id = id' then [] else c.pending id k := by
  rw [pending, slot_purgeKey]
  split_ifs
  · simp [flatMap_map]
  · rfl

theorem mem_pending_notify {e entry : WatchEntry} (h : e ∈ (c.notify entry).pending id k) :
    e ∈ c.pending id k ∨ e = entry ∧ k = entry.mKey := by
  rw [pending, slot_notify] at h
  split_ifs at h with hk
  · obtain ⟨_, hmap, he⟩ := mem_flatMap.mp h
    obtain ⟨wrap, hwrap, rfl⟩ := mem_map.mp hmap
    rcases mem_append.mp he with he | he
    · exact .inl (mem_flatMap.mpr ⟨wrap, hwrap, he⟩)
    · exact .inr ⟨mem_singleton.mp he, hk⟩
  · exact .inl h

theorem Sound.pending_eq_nil (h : c.Sound) (hk : k ∉ (c.mWatchId2KeyMap id).getD []) : c.pending id k = [] := by
  have hlength := (h id k).trans (count_eq_zero.mpr hk)
  rw [pending, eq_nil_of_length_eq_zero hlength, flatMap_nil]

theorem Sound.exists_wrap (h : c.Sound) {keys : List KeyType} (hkeys : c.mWatchId2KeyMap id = some keys)
    (hk : k ∈ keys) : ∃ wrap ∈ c.mKey2WatchEntryMap k, wrap.mWatchId = id := by
  have hlength : 0 < (c.slot id k).length := by
    rw [h id k, hkeys]
    exact count_pos_iff.mpr hk
  obtain ⟨wrap, hwrap⟩ := exists_mem_of_length_pos hlength
  obtain ⟨hmem, hid⟩ := mem_filter.mp hwrap
  exact ⟨wrap, hmem, by simpa using hid⟩

theorem pending_notify (h : c.Sound) {keys : List KeyType} (hkeys : c.mWatchId2KeyMap id = some keys)
    (hcount : keys.count k ≤ 1) (entry : WatchEntry) : (c.notify entry).pending id k =
    c.pending id k ++ if k = entry.mKey ∧ k ∈ keys then [entry] else [] := by
  rw [pending, slot_notify]
  by_cases hk : k = entry.mKey
  · have hlength : (c.slot id k).length = keys.count k := by simpa [hkeys] using h id k
    by_cases hmem : k ∈ keys
    · obtain ⟨wrap, hwrap⟩ := length_eq_one_iff.mp
        (hlength.trans (Nat.le_antisymm hcount (count_pos_iff.mpr hmem)))
      simp [pending, hwrap, ← hk, hmem]
    · rw [count_eq_zero.mpr hmem] at hlength
      simp [pending, eq_nil_of_length_eq_zero hlength, hmem]
  · simp [pending, hk]

end WatchCenter

end Goblin.ObjectStore
