import Goblin.Store.CacheLine

/-! Caches that differ only in versions allocated from some version on. -/
namespace Goblin.Store

open Model Lib

/-- The same version, or two versions allocated from `n` on. -/
def VersionAlike (n v v' : ℕ) : Prop := v = v' ∨ n ≤ v ∧ n ≤ v'

structure Cell.Alike (n : ℕ) (c c' : Cell) : Prop where
  value : c.value = c'.value
  version : VersionAlike n c.version c'.version
  ttl : c.ttl = c'.ttl
  deadline : c.deadline = c'.deadline
  updateTime : c.updateTime = c'.updateTime

/-- Both are absent, or both are present and related. -/
def OptionAlike {α : Type} (R : α → α → Prop) : Option α → Option α → Prop
  | none, none => True
  | some a, some b => R a b
  | _, _ => False

structure InMemoryKVStore.Alike (n : ℕ) (m m' : InMemoryKVStore) : Prop where
  data : ∀ key, OptionAlike (Cell.Alike n) (m.mData key) (m'.mData key)
  udfMeta : ∀ key, m.mUdfMetaMap key = m'.mUdfMetaMap key
  deleted : ∀ key, OptionAlike (VersionAlike n) (m.mDeletedData key) (m'.mDeletedData key)

/-- The results of two reads agree except for allocated versions. -/
structure ReadAlike (n : ℕ) (r r' : Status × ReadOut) : Prop where
  status : r.1 = r'.1
  value : r.2.value = r'.2.value
  ttl : r.2.ttl = r'.2.ttl
  version : VersionAlike n r.2.version r'.2.version

theorem VersionAlike.refl (n v : ℕ) : VersionAlike n v v := .inl rfl

theorem Cell.Alike.refl (n : ℕ) (c : Cell) : c.Alike n c := ⟨rfl, .refl n _, rfl, rfl, rfl⟩

theorem OptionAlike.refl {α : Type} {R : α → α → Prop} (h : ∀ a, R a a) (a : Option α) :
    OptionAlike R a a := by
  cases a with
  | none => trivial
  | some a => exact h a

theorem ReadAlike.refl (n : ℕ) (r : Status × ReadOut) : ReadAlike n r r :=
  ⟨rfl, rfl, rfl, .refl n _⟩

namespace InMemoryKVStore

variable {n : ℕ} {m m' : InMemoryKVStore}

attribute [local simp] OptionAlike InMemoryKVStore.writeTTLKV

theorem Alike.refl (n : ℕ) (m : InMemoryKVStore) : m.Alike n m :=
  ⟨fun _ => .refl (Cell.Alike.refl n) _, fun _ => rfl, fun _ => .refl (VersionAlike.refl n) _⟩

theorem Alike.eraseData (h : m.Alike n m') (key : KeyType) :
    (m.eraseData key).Alike n (m'.eraseData key) :=
  { h with
    data k := by
      by_cases hk : k = key
      · simp [InMemoryKVStore.eraseData, hk]
      · simpa [InMemoryKVStore.eraseData, hk] using h.data k }

theorem Alike.writeTTLKV (h : m.Alike n m') (key : KeyType) (value : ValueType) {version version' : ℕ}
    (hv : VersionAlike n version version') (ttl deadline updateTime : ℕ) (udfMeta : UserDefinedMeta) :
    (m.writeTTLKV key value version ttl deadline updateTime udfMeta).Alike n
      (m'.writeTTLKV key value version' ttl deadline updateTime udfMeta) where
  data k := by
    by_cases hk : k = key
    · subst hk
      simpa using ⟨rfl, hv, rfl, rfl, rfl⟩
    · simpa [hk] using h.data k
  udfMeta k := by
    by_cases hn : udfMeta.nonempty
    · by_cases hk : k = key
      · simp [hn, hk]
      · simpa [hn, hk] using h.udfMeta k
    · simpa [hn] using h.udfMeta k
  deleted k := by
    by_cases hk : k = key
    · simp [hk]
    · simpa [hk] using h.deleted k

theorem Alike.deleteKV (h : m.Alike n m') (key : KeyType) {version version' : ℕ}
    (hv : VersionAlike n version version') :
    (m.deleteKV key version).Alike n (m'.deleteKV key version') := by
  have hdata := h.data key
  unfold InMemoryKVStore.deleteKV
  cases hm : m.mData key with
  | none =>
    cases hm' : m'.mData key with
    | none => simpa [hm, hm'] using h
    | some c' => simp [hm, hm'] at hdata
  | some c =>
    cases hm' : m'.mData key with
    | none => simp [hm, hm'] at hdata
    | some c' =>
      have hnone : m.mDeletedData key = none := m.disjoint key (by simp [hm])
      have hnone' : m'.mDeletedData key = none := m'.disjoint key (by simp [hm'])
      refine ⟨fun k => ?_, fun k => ?_, fun k => ?_⟩
      · by_cases hk : k = key
        · simp [hk]
        · simpa [hk] using h.data k
      · by_cases hk : k = key
        · simp [hk]
        · simpa [hk] using h.udfMeta k
      · by_cases hk : k = key
        · subst hk
          simpa [hnone, hnone'] using hv
        · simpa [hk] using h.deleted k

theorem Alike.readKV (h : m.Alike n m') (db : RocksDBKVStore) (now : ℕ) (key : KeyType) (out : ReadOut) :
    ReadAlike n (m.readKV db now key out).1 (m'.readKV db now key out).1 ∧
      (m.readKV db now key out).2.Alike n (m'.readKV db now key out).2 := by
  have hdata := h.data key
  have hdel := h.deleted key
  unfold InMemoryKVStore.readKV
  cases hm : m.mData key with
  | none =>
    cases hm' : m'.mData key with
    | some c' => simp [hm, hm'] at hdata
    | none =>
      cases hd : m.mDeletedData key with
      | none =>
        cases hd' : m'.mDeletedData key with
        | none => exact ⟨.refl n _, h⟩
        | some v' => simp [hd, hd'] at hdel
      | some v =>
        cases hd' : m'.mDeletedData key with
        | none => simp [hd, hd'] at hdel
        | some v' =>
          simp only [hd, hd', OptionAlike] at hdel
          exact ⟨⟨rfl, rfl, rfl, hdel⟩, h⟩
  | some c =>
    cases hm' : m'.mData key with
    | none => simp [hm, hm'] at hdata
    | some c' =>
      simp only [hm, hm', OptionAlike] at hdata
      dsimp only
      rw [hdata.deadline, hdata.ttl]
      split_ifs
      · exact ⟨.refl n _, h.eraseData key⟩
      · exact ⟨⟨rfl, hdata.value, rfl, hdata.version⟩, h⟩

theorem Alike.readMeta (h : m.Alike n m') (db : RocksDBKVStore) (key : KeyType) :
    (m.readMeta db key).1 = (m'.readMeta db key).1 ∧
      (m.readMeta db key).2.ttl = (m'.readMeta db key).2.ttl ∧
      (m.readMeta db key).2.deadline = (m'.readMeta db key).2.deadline := by
  have hdata := h.data key
  unfold InMemoryKVStore.readMeta
  cases hm : m.mData key with
  | none =>
    cases hm' : m'.mData key with
    | none => exact ⟨rfl, rfl, rfl⟩
    | some c' => simp [hm, hm'] at hdata
  | some c =>
    cases hm' : m'.mData key with
    | none => simp [hm, hm'] at hdata
    | some c' =>
      simp only [hm, hm', OptionAlike] at hdata
      exact ⟨rfl, hdata.ttl, hdata.deadline⟩

end InMemoryKVStore

end Goblin.Store
