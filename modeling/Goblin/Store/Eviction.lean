import Goblin.Store.Segments

/-! What `evictKV` removes from the cache, and what it leaves. -/
namespace Goblin.Store.InMemoryKVStore

open Model List

variable {s t : InMemoryKVStore} {db : RocksDBKVStore} {now guardVersion : ℕ} {key k : KeyType}
  {keys : List KeyType}

/-- The version of the value or of the deletion record. -/
def recordVersion (s : InMemoryKVStore) (key : KeyType) : Option ℕ :=
  match s.mData key with
  | some c => some c.version
  | none => s.mDeletedData key

theorem slot_eraseData_self : (s.eraseData key).slot key = ⟨none, s.mUdfMetaMap key, s.mDeletedData key⟩ := by
  simp [slot, eraseData]

theorem slot_erase_self : (s.erase key).slot key = {} := by
  simp [slot, erase]

/-- One round of the loop, by what the cache holds: an expired value is lost in the read, a newer one and a
deletion record stay. -/
theorem evictKey_of_some {c : Cell} (h : s.mData key = some c) :
    s.evictKey db now key guardVersion =
      if isTimeOut now c.deadline c.ttl then s.eraseData key
      else if c.version > guardVersion then s else s.erase key := by
  by_cases hout : isTimeOut now c.deadline c.ttl
  · simp [evictKey, readKV, h, hout]
  · by_cases hnew : c.version > guardVersion <;> simp [evictKey, readKV, h, hout, hnew]

theorem evictKey_of_deleted {version : ℕ} (h : s.mDeletedData key = some version) :
    s.evictKey db now key guardVersion = s := by
  have hdata : s.mData key = none := by
    cases hc : s.mData key with
    | none => rfl
    | some c =>
      have hnone := s.disjoint key (by rw [hc]; rfl)
      rw [hnone] at h
      cases h
  simp [evictKey, readKV, hdata, h]

theorem slot_evictKey_of_ne (h : k ≠ key) : (s.evictKey db now key guardVersion).slot k = s.slot k :=
  (ObservedKVStore.local_evictKV db now guardVersion).frame s k h

theorem slot_evictKey_congr (h : s.slot key = t.slot key) :
    (s.evictKey db now key guardVersion).slot key = (t.evictKey db now key guardVersion).slot key :=
  ((ObservedKVStore.local_evictKV db now guardVersion).congr s t h).2

theorem slot_evictKV (s : InMemoryKVStore) (hkeys : keys.Nodup) (k : KeyType) :
    (s.evictKV db now keys guardVersion).slot k =
      if k ∈ keys then (s.evictKey db now k guardVersion).slot k else s.slot k := by
  induction keys generalizing s with
  | nil => rfl
  | cons key keys ih =>
    obtain ⟨hkey, hkeys⟩ := nodup_cons.mp hkeys
    have hcons : s.evictKV db now (key :: keys) guardVersion =
        (s.evictKey db now key guardVersion).evictKV db now keys guardVersion := rfl
    rw [hcons, ih _ hkeys]
    by_cases hk : k = key
    · subst hk
      rw [if_neg hkey, if_pos mem_cons_self]
    · have hsame : (s.evictKey db now key guardVersion).slot k = s.slot k := slot_evictKey_of_ne hk
      by_cases hmem : k ∈ keys
      · rw [if_pos hmem, if_pos (mem_cons_of_mem _ hmem)]
        exact slot_evictKey_congr hsame
      · rw [if_neg hmem, if_neg (by simp [hk, hmem])]
        exact hsame

/-- What an eviction is for: it frees the keys whose record is not newer than the guard, and leaves the newer
ones and all other keys alone. -/
def FreesExactly (s t : InMemoryKVStore) (keys : List KeyType) (guardVersion : ℕ) : Prop :=
  (∀ key ∈ keys, ∀ version, s.recordVersion key = some version → version ≤ guardVersion →
    t.slot key = {}) ∧
  ∀ key, key ∉ keys ∨ (∃ version, s.recordVersion key = some version ∧ guardVersion < version) →
    t.slot key = s.slot key

/-- The key has no deletion record that should go, and no expired value that is newer than the guard or has a
meta. -/
def Evictable (s : InMemoryKVStore) (now guardVersion : ℕ) (key : KeyType) : Prop :=
  (∀ version, s.mDeletedData key = some version → guardVersion < version) ∧
  ∀ c, s.mData key = some c → isTimeOut now c.deadline c.ttl →
    c.version ≤ guardVersion ∧ s.mUdfMetaMap key = none

theorem recordVersion_of_deleted {version : ℕ} (h : s.mDeletedData key = some version) :
    s.recordVersion key = some version := by
  unfold recordVersion
  cases hc : s.mData key with
  | none => exact h
  | some c =>
    have hnone := s.disjoint key (by rw [hc]; rfl)
    rw [hnone] at h
    cases h

theorem deleted_of_some {c : Cell} (h : s.mData key = some c) : s.mDeletedData key = none :=
  s.disjoint key (by rw [h]; rfl)

/-- One round frees its key, or leaves it, exactly as the version says, if the key is evictable. -/
theorem slot_evictKey_of_evictable (h : s.Evictable now guardVersion key) {version : ℕ}
    (hversion : s.recordVersion key = some version) :
    (s.evictKey db now key guardVersion).slot key =
      if version ≤ guardVersion then {} else s.slot key := by
  cases hdata : s.mData key with
  | some c =>
    obtain rfl : c.version = version := by simpa [recordVersion, hdata] using hversion
    rw [evictKey_of_some hdata]
    by_cases hout : isTimeOut now c.deadline c.ttl
    · obtain ⟨hle, hmeta⟩ := h.2 c hdata hout
      rw [if_pos hout, if_pos hle, slot_eraseData_self, hmeta, deleted_of_some hdata]
    · rw [if_neg hout]
      by_cases hle : c.version ≤ guardVersion
      · rw [if_neg (by omega), if_pos hle, slot_erase_self]
      · rw [if_pos (by omega), if_neg hle]
  | none =>
    have hdeleted : s.mDeletedData key = some version := by simpa [recordVersion, hdata] using hversion
    have hnew := h.1 version hdeleted
    rw [evictKey_of_deleted hdeleted, if_neg (by omega)]

/-- An eviction frees exactly what it should exactly when all its keys are evictable. -/
theorem evictKV_frees_iff (hkeys : keys.Nodup) :
    FreesExactly s (s.evictKV db now keys guardVersion) keys guardVersion ↔
      ∀ key ∈ keys, s.Evictable now guardVersion key := by
  constructor
  · rintro ⟨hfreed, hkept⟩ key hkey
    have hslot : (s.evictKV db now keys guardVersion).slot key =
        (s.evictKey db now key guardVersion).slot key := by
      rw [slot_evictKV s hkeys, if_pos hkey]
    refine ⟨fun version hdeleted => ?_, fun c hdata hout => ?_⟩
    · by_contra hle
      have hfree := hfreed key hkey version (recordVersion_of_deleted hdeleted) (Nat.le_of_not_lt hle)
      rw [hslot, evictKey_of_deleted hdeleted] at hfree
      simp [slot, hdeleted] at hfree
    · have hversion : s.recordVersion key = some c.version := by simp [recordVersion, hdata]
      rw [evictKey_of_some hdata, if_pos hout, slot_eraseData_self] at hslot
      have hle : c.version ≤ guardVersion := by
        by_contra hnew
        have hkeep := hkept key (.inr ⟨c.version, hversion, Nat.lt_of_not_le hnew⟩)
        rw [hslot] at hkeep
        simp [slot, hdata] at hkeep
      have hfree := hfreed key hkey c.version hversion hle
      rw [hslot] at hfree
      exact ⟨hle, congrArg Slot.udfMeta hfree⟩
  · intro h
    refine ⟨fun key hkey version hversion hle => ?_, fun key hkey => ?_⟩
    · rw [slot_evictKV s hkeys, if_pos hkey, slot_evictKey_of_evictable (h key hkey) hversion, if_pos hle]
    · by_cases hmem : key ∈ keys
      · obtain ⟨version, hversion, hnew⟩ := hkey.resolve_left (not_not_intro hmem)
        rw [slot_evictKV s hkeys, if_pos hmem, slot_evictKey_of_evictable (h key hmem) hversion,
          if_neg (Nat.not_le.mpr hnew)]
      · rw [slot_evictKV s hkeys, if_neg hmem]

/-- One record that is on disk and one that is not yet. -/
def twoRecords : InMemoryKVStore :=
  (({} : InMemoryKVStore).writeKV "a" "1" 3 0 ⟨[7], []⟩).writeKV "b" "2" 5 0 {}

theorem evictKV_frees_twoRecords :
    FreesExactly twoRecords (twoRecords.evictKV {} 0 ["a", "b"] 4) ["a", "b"] 4 := by
  refine (evictKV_frees_iff (by decide)).mpr fun key hkey => ⟨fun version hdeleted => ?_, fun c hdata hout => ?_⟩
  · rcases mem_pair.mp hkey with rfl | rfl <;> cases hdeleted
  · rcases mem_pair.mp hkey with rfl | rfl <;> cases hdata <;> cases hout

/-- A deletion record is never evicted; an expired value is lost though it is newer than the guard; and the meta
of an expired value stays. -/
theorem evictKV_not_exact :
    ¬ FreesExactly (twoRecords.deleteKV "a" 4) ((twoRecords.deleteKV "a" 4).evictKV {} 0 ["a"] 4) ["a"] 4 ∧
    ¬ FreesExactly (({} : InMemoryKVStore).writeTTLKV "a" "1" 3 10 20 0 {})
      ((({} : InMemoryKVStore).writeTTLKV "a" "1" 3 10 20 0 {}).evictKV {} 20 ["a"] 2) ["a"] 2 ∧
    ¬ FreesExactly (({} : InMemoryKVStore).writeTTLKV "a" "1" 3 10 20 0 ⟨[7], []⟩)
      ((({} : InMemoryKVStore).writeTTLKV "a" "1" 3 10 20 0 ⟨[7], []⟩).evictKV {} 20 ["a"] 3) ["a"] 3 := by
  refine ⟨fun h => ?_, fun h => ?_, fun h => ?_⟩
  · exact absurd (h.1 "a" (by decide) 4 rfl (by decide)) (by decide)
  · exact absurd (h.2 "a" (.inr ⟨3, rfl, by decide⟩)) (by decide)
  · exact absurd (h.1 "a" (by decide) 3 rfl (by decide)) (by decide)

end Goblin.Store.InMemoryKVStore
