import Goblin.Command.Run

/-! Which lists of preconditions pass: what the conditions say about the stores they are checked on,
and the stored lists that a comparison reads outside their length. -/
namespace Goblin.Model

open Store Lib

/-- What a read answers on these stores; a follower read goes past the cache. -/
def Stores.lookup (s : Stores) (fromProxy : Bool) (key : KeyType) : Status × ReadOut :=
  if fromProxy then s.mem.readKVFromProxy s.db s.now key {} else s.readKV key

def Stores.lookupMeta (s : Stores) (fromProxy : Bool) (key : KeyType) : Status × Meta :=
  if fromProxy then s.mem.readMetaFromProxy s.db key else s.readMeta key

/-- What a check goes by: the answers to its reads, and the user defined meta that a key is found with. -/
structure View where
  lookup : KeyType → Status × ReadOut
  udfMeta : KeyType → Option UserDefinedMeta

/-- What the reads of a check answer. -/
def Stores.reads (s : Stores) (fromProxy : Bool) : View where
  lookup := s.lookup fromProxy
  udfMeta key :=
    if (s.lookup fromProxy key).1.isNotFound then none else (s.lookupMeta fromProxy key).2.udfMeta

/-- What is stored: the user defined meta of the cell, or that of the record. -/
def Stores.view (s : Stores) (fromProxy : Bool) : View where
  lookup := s.lookup fromProxy
  udfMeta key :=
    if (s.lookup fromProxy key).1.isOK = false then none
    else if fromProxy = false ∧ (s.mem.mData key).isSome then s.mem.mUdfMetaMap key
    else (s.db.mRocksDB key).bind fun r => r.toMeta.udfMeta

/-- The reads of the key answer what the view says. -/
def Stores.Shows (s : Stores) (fromProxy : Bool) (v : View) (key : KeyType) : Prop :=
  s.lookup fromProxy key = v.lookup key ∧ (s.reads fromProxy).udfMeta key = v.udfMeta key

/-- The second stores are the first ones after some reads: expired cells may be gone. -/
structure Stores.Swept (s t : Stores) : Prop where
  db : t.db = s.db
  now : t.now = s.now
  udfMeta : t.mem.mUdfMetaMap = s.mem.mUdfMetaMap
  deleted : t.mem.mDeletedData = s.mem.mDeletedData
  data : ∀ key, t.mem.mData key = s.mem.mData key ∨
    t.mem.mData key = none ∧
      ∃ c, s.mem.mData key = some c ∧ isTimeOut s.now c.deadline c.ttl

/-- The reads in between were reads of these keys. -/
structure Stores.SweptOn (s : Stores) (read : List KeyType) (t : Stores) : Prop extends s.Swept t where
  same : ∀ key ∉ read, t.mem.mData key = s.mem.mData key

/-- The bytes of a record that a read gets from RocksDB can be read; and a key that is read again after an expired cell
of it was erased has no older record in RocksDB. -/
structure Stores.Steady (s : Stores) (fromProxy : Bool) (read : List KeyType) (key : KeyType) : Prop where
  readable : s.db.mGetError key = none →
    (fromProxy = true ∨ s.mem.mDeletedData key = none ∧ (s.mem.mData key = none ∨ key ∈ read ∧
      ∃ c, s.mem.mData key = some c ∧ isTimeOut s.now c.deadline c.ttl)) →
    ∀ r, s.db.mRocksDB key = some r → r.Readable
  settled : fromProxy = false → key ∈ read → ∀ c, s.mem.mData key = some c →
    isTimeOut s.now c.deadline c.ttl → (s.db.readKV s.now key {}).1.isNotFound

section Reads

variable {s t u : Stores} {key : KeyType} {keys read : List KeyType} {fromProxy : Bool}

theorem Stores.Swept.refl (s : Stores) : s.Swept s :=
  ⟨rfl, rfl, rfl, rfl, fun _ => .inl rfl⟩

theorem Stores.Swept.trans (h : s.Swept t) (h' : t.Swept u) : s.Swept u where
  db := h'.db.trans h.db
  now := h'.now.trans h.now
  udfMeta := h'.udfMeta.trans h.udfMeta
  deleted := h'.deleted.trans h.deleted
  data k := by
    rcases h.data k with heq | ⟨hnone, hc⟩
    · have hk := h'.data k
      rwa [heq, h.now] at hk
    · rcases h'.data k with heq' | ⟨hnone', -⟩
      · exact .inr ⟨heq'.trans hnone, hc⟩
      · exact .inr ⟨hnone', hc⟩

theorem Stores.SweptOn.refl (s : Stores) : s.SweptOn [] s := ⟨.refl s, fun _ _ => rfl⟩

theorem Stores.SweptOn.trans (h : s.SweptOn read t) (h' : t.SweptOn keys u) : s.SweptOn (keys ++ read) u where
  toSwept := h.toSwept.trans h'.toSwept
  same key hkey := by
    rw [List.mem_append, not_or] at hkey
    exact (h'.same key hkey.1).trans (h.same key hkey.2)

theorem Stores.lookup_congr (hdb : t.db = s.db) (hnow : t.now = s.now)
    (hdeleted : t.mem.mDeletedData = s.mem.mDeletedData) (hdata : t.mem.mData key = s.mem.mData key) :
    t.lookup fromProxy key = s.lookup fromProxy key := by
  simp only [Stores.lookup, Stores.readKV, InMemoryKVStore.readKV, InMemoryKVStore.readKVFromProxy, hdb, hnow, hdeleted,
    hdata]
  split_ifs
  · rfl
  · cases s.mem.mData key with
    | none => cases s.mem.mDeletedData key <;> rfl
    | some c =>
      dsimp only
      split_ifs <;> rfl

/-- The key has no expired cell over an older record in RocksDB. -/
def Stores.SettledAt (s : Stores) (key : KeyType) : Prop :=
  ∀ c, s.mem.mData key = some c → isTimeOut s.now c.deadline c.ttl → (s.db.readKV s.now key {}).1.isNotFound

theorem Stores.Swept.readKV_eq (h : s.Swept t) (hs : s.SettledAt key) : t.readKV key = s.readKV key := by
  rcases h.data key with heq | ⟨hnone, c, hc, hto⟩
  · exact @lookup_congr s t key false h.db h.now h.deleted heq
  · have hdel : s.mem.mDeletedData key = none := s.mem.disjoint key (by simp [hc])
    have hnf := hs c hc hto
    simp only [Stores.readKV, InMemoryKVStore.readKV, h.db, h.now, h.deleted, hnone, hdel, hc, hto, if_true]
    unfold RocksDBKVStore.readKV at hnf ⊢
    split at hnf
    · simp at hnf
    · split at hnf
      · rfl
      · split_ifs at hnf with hexp
        · simp [hexp]
        · simp at hnf

theorem Stores.SweptOn.lookup_eq (h : s.SweptOn read t) (hs : s.Steady fromProxy read key) :
    t.lookup fromProxy key = s.lookup fromProxy key := by
  rcases h.data key with heq | ⟨hnone, c, hc, hto⟩
  · exact lookup_congr h.db h.now h.deleted heq
  · cases fromProxy with
    | true => simp [Stores.lookup, InMemoryKVStore.readKVFromProxy, h.db, h.now]
    | false =>
      have hread : key ∈ read := by
        by_contra hout
        rw [h.same key hout, hc] at hnone
        cases hnone
      exact h.readKV_eq (hs.settled rfl hread)

/-- A key that is found stays as it is. -/
theorem Stores.Swept.data_of_found (h : s.Swept t) (hfound : (s.lookup false key).1.isNotFound = false) :
    t.mem.mData key = s.mem.mData key := by
  rcases h.data key with heq | ⟨-, c, hc, hto⟩
  · exact heq
  · simp [Stores.lookup, Stores.readKV, InMemoryKVStore.readKV, hc, hto] at hfound

theorem Stores.Swept.lookupMeta_eq (h : s.Swept t) (hfound : (s.lookup fromProxy key).1.isNotFound = false) :
    t.lookupMeta fromProxy key = s.lookupMeta fromProxy key := by
  cases fromProxy with
  | true => simp [Stores.lookupMeta, InMemoryKVStore.readMetaFromProxy, h.db]
  | false => simp [Stores.lookupMeta, Stores.readMeta, InMemoryKVStore.readMeta, h.db, h.udfMeta,
    h.data_of_found hfound]

/-- Where the record can be read, a check goes by what is stored. -/
theorem Stores.Steady.reads_eq (hs : s.Steady fromProxy read key) :
    (s.reads fromProxy).udfMeta key = (s.view fromProxy).udfMeta key := by
  have hdb (hno : s.db.mGetError key = none) (hr : ∀ r, s.db.mRocksDB key = some r → r.Readable) :
      (s.db.readMeta key).2.udfMeta = (s.db.mRocksDB key).bind fun r => r.toMeta.udfMeta := by
    simp only [RocksDBKVStore.readMeta, hno]
    cases hrec : s.db.mRocksDB key with
    | none => rfl
    | some r => simp [Record.parseMeta, hr r hrec]
  have hread (h : fromProxy = true ∨ s.mem.mDeletedData key = none ∧ s.mem.mData key = none) :
      (if (s.db.readKV s.now key {}).1.isNotFound then none else (s.db.readMeta key).2.udfMeta) =
        if (s.db.readKV s.now key {}).1.isOK = false then none
        else (s.db.mRocksDB key).bind fun r => r.toMeta.udfMeta := by
    cases hno : s.db.mGetError key with
    | some msg => simp [RocksDBKVStore.readKV, RocksDBKVStore.readMeta, hno]
    | none =>
      rw [hdb hno (hs.readable hno (h.imp_right (And.imp_right .inl)))]
      simp only [RocksDBKVStore.readKV, hno]
      cases s.db.mRocksDB key with
      | none => simp
      | some r =>
        dsimp only
        split_ifs <;> simp_all
  cases fromProxy with
  | true => simpa [Stores.reads, Stores.view, Stores.lookup, Stores.lookupMeta, InMemoryKVStore.readKVFromProxy,
      InMemoryKVStore.readMetaFromProxy] using hread (.inl rfl)
  | false =>
    simp only [Stores.reads, Stores.view, Stores.lookup, Stores.lookupMeta, Bool.false_eq_true, if_false, Stores.readKV,
      Stores.readMeta, InMemoryKVStore.readKV, InMemoryKVStore.readMeta]
    cases hm : s.mem.mData key with
    | some c =>
      dsimp only
      split_ifs <;> simp_all
    | none =>
      cases hd : s.mem.mDeletedData key with
      | some v => simp
      | none => simpa using hread (.inr ⟨hd, hm⟩)

theorem Stores.SweptOn.shows (h : s.SweptOn read t) (hs : s.Steady fromProxy read key) :
    t.Shows fromProxy (s.view fromProxy) key := by
  have hlookup := h.lookup_eq hs
  refine ⟨hlookup, ?_⟩
  rw [← hs.reads_eq]
  simp only [Stores.reads, hlookup]
  split_ifs with hnf
  · rfl
  · rw [h.lookupMeta_eq (by simpa using hnf)]

theorem Stores.swept_answer (s : Stores) (o : StoreOp) : s.Swept (s.answer o).2 := by
  cases o with
  | readKV key out =>
    refine ⟨rfl, rfl, ?_, funext fun _ => InMemoryKVStore.readKV_state_deleted, fun k => ?_⟩
    · simp only [Stores.answer, InMemoryKVStore.readKV]
      split
      · split <;> rfl
      · split <;> rfl
    · by_cases hk : k = key
      · subst hk
        simp only [Stores.answer, InMemoryKVStore.readKV_state_self, visible]
        cases hm : s.mem.mData k with
        | none => exact .inl rfl
        | some c =>
          by_cases hto : isTimeOut s.now c.deadline c.ttl
          · exact .inr ⟨by simp [hto], c, rfl, hto⟩
          · exact .inl (by simp [hto])
      · exact .inl (InMemoryKVStore.readKV_state_data hk)
  | _ => exact .refl s

theorem Stores.swept_run {α : Type} {p : StoreProg α} {a : α}
    (hr : p.run Stores.answer s = some (a, t)) : s.Swept t :=
  Program.run_rel Stores.Swept.refl (fun _ _ _ => Stores.Swept.trans) Stores.swept_answer hr

theorem run_readKVFrom (s : Stores) (fromProxy : Bool) (key : KeyType) :
    ∃ t, s.SweptOn [key] t ∧
      (readKVFrom fromProxy key {}).run Stores.answer s = some (s.lookup fromProxy key, t) := by
  cases fromProxy with
  | true => exact ⟨s, ⟨.refl s, fun _ _ => rfl⟩, rfl⟩
  | false =>
    refine ⟨_, ⟨s.swept_answer (.readKV key {}), fun k hk => ?_⟩, rfl⟩
    exact InMemoryKVStore.readKV_state_data (by simpa using hk)

theorem run_readMetaFrom_lookup (s : Stores) (fromProxy : Bool) (key : KeyType) :
    (readMetaFrom fromProxy key).run Stores.answer s = some (s.lookupMeta fromProxy key, s) := by
  cases fromProxy <;> rfl

theorem lookupMeta_isOK_of_udfMeta {m : UserDefinedMeta}
    (hm : (s.lookupMeta fromProxy key).2.udfMeta = some m) :
    (s.lookupMeta fromProxy key).1 = .ok := by
  have hdb : (s.db.readMeta key).2.udfMeta = some m → (s.db.readMeta key).1 = .ok := by
    unfold RocksDBKVStore.readMeta Record.parseMeta
    split
    · simp
    · split
      · simp
      · split_ifs
        · simp
        · split <;> simp
  cases fromProxy with
  | true => exact hdb hm
  | false =>
    simp only [Stores.lookupMeta, Bool.false_eq_true, if_false, Stores.readMeta,
      InMemoryKVStore.readMeta] at hm ⊢
    cases hd : s.mem.mData key with
    | none => exact hdb (by simpa [hd] using hm)
    | some c => rfl

end Reads

namespace Precondition

/-- The key whose user defined meta the condition compares. -/
def userMetaKey : Precondition → List KeyType
  | .userMetaCond key _ _ _ _ => [key]
  | _ => []

/-- A comparison only counts on a key that is found with a user defined meta. A condition that is
none of the three kinds never holds. -/
def HoldsOn (v : View) : Precondition → Prop
  | .versionCond key version op =>
    op = .EQUAL ∧ (v.lookup key).1.isOK ∧ (v.lookup key).2.version = version
  | .existCond key shouldExist =>
    if shouldExist then (v.lookup key).1.isOK else (v.lookup key).1.isNotFound
  | .userMetaCond key metaType provided pos op =>
    ∀ stored, v.udfMeta key = some stored →
      metaType = .NUM ∧ op = .GREATER ∧ pos < provided.uintField.length ∧
        (stored.uintField ≠ [] → pos < stored.uintField.length)
  | .unset => False

/-- The number stored at the position is not smaller than the one that comes with the condition. -/
def Ignores (v : View) (key : KeyType) : Precondition → Prop
  | .userMetaCond k _ provided pos _ =>
    k = key ∧ ∃ stored e p, v.udfMeta key = some stored ∧ stored.uintField[pos]? = some e ∧
      provided.uintField[pos]? = some p ∧ p ≤ e
  | _ => False

/-- The number stored at the position is smaller: the meta that comes with the condition is kept, to
be compared with the metas of the puts. -/
def Saves (v : View) (key : KeyType) (m : UserDefinedMeta) : Precondition → Prop
  | .userMetaCond k _ provided pos _ =>
    k = key ∧ provided = m ∧ ∃ stored e p, v.udfMeta key = some stored ∧
      stored.uintField[pos]? = some e ∧ provided.uintField[pos]? = some p ∧ e < p
  | _ => False

/-- The stored meta has no numbers, and the condition has one at its position. -/
def ReadsPast (v : View) : Precondition → Prop
  | .userMetaCond key metaType provided pos _ =>
    metaType = .NUM ∧ pos < provided.uintField.length ∧
      ∃ stored, v.udfMeta key = some stored ∧ stored.uintField = []
  | _ => False

theorem Saves.unique {v : View} {cond : Precondition} {key key' : KeyType}
    {m m' : UserDefinedMeta} (h : cond.Saves v key m) (h' : cond.Saves v key' m') :
    key = key' ∧ m = m' := by
  cases cond with
  | userMetaCond k metaType provided pos op => exact ⟨h.1.symm.trans h'.1, h.2.1.symm.trans h'.2.1⟩
  | _ => cases h

theorem Saves.mem_userMetaKey {v : View} {cond : Precondition} {key : KeyType}
    {m : UserDefinedMeta} (h : cond.Saves v key m) : key ∈ cond.userMetaKey := by
  cases cond with
  | userMetaCond k metaType provided pos op => simp [userMetaKey, h.1]
  | _ => cases h

/-- No condition before it is about the user defined meta of the same key. -/
def Fresh (seen : List KeyType) (cond : Precondition) : Prop :=
  ∀ key ∈ cond.userMetaKey, key ∉ seen

/-- The lists that are read by the conditions reached are long enough: the check ends at the first
condition that does not hold. -/
def InBounds (v : View) : List KeyType → List Precondition → Prop
  | _, [] => True
  | seen, cond :: conds => cond.Fresh seen → ¬ cond.ReadsPast v ∧
      (cond.HoldsOn v → InBounds v (cond.userMetaKey ++ seen) conds)

/-- The reads of the conditions that are reached are steady. -/
def ReadsSteady (s : Stores) (fromProxy : Bool) : List KeyType → List KeyType → List Precondition → Prop
  | _, _, [] => True
  | seen, read, cond :: conds => cond.Fresh seen →
      (∀ key ∈ KVTransCommand.condKey cond, s.Steady fromProxy read key) ∧
      (cond.HoldsOn (s.view fromProxy) →
        ReadsSteady s fromProxy (cond.userMetaKey ++ seen) (KVTransCommand.condKey cond ++ read) conds)

/-- Every condition holds, and no key has two conditions on its user defined meta. -/
structure AllHold (v : View) (conds : List Precondition) : Prop where
  holds : ∀ cond ∈ conds, cond.HoldsOn v
  nodup : (conds.flatMap userMetaKey).Nodup

end Precondition

namespace KVTransCommand

open Precondition

variable {s t : Stores} {fromProxy : Bool} {st : CondState} {keys : List KeyType} {v : View}

/-- How the check of one condition ends, in terms of what it goes by. -/
inductive Checks (s : Stores) (v : View) (st : CondState) (cond : Precondition) :
    Option (CondResult × Stores) → Prop
  | past (fresh : cond.Fresh st.udfKeySet) (past : cond.ReadsPast v) :
    Checks s v st cond none
  | fails {r : CondResult} {t : Stores} (swept : s.SweptOn (condKey cond) t) (stop : r.stop = true)
    (status : r.status.isOK = false)
    (fails : cond.Fresh st.udfKeySet → ¬ cond.HoldsOn v ∧ ¬ cond.ReadsPast v) :
    Checks s v st cond (some (r, t))
  | passes {r : CondResult} {t : Stores} (swept : s.SweptOn (condKey cond) t) (stop : r.stop = false)
    (status : r.status.isOK) (fresh : cond.Fresh st.udfKeySet) (holds : cond.HoldsOn v)
    (inside : ¬ cond.ReadsPast v)
    (seen : r.state.udfKeySet = cond.userMetaKey ++ st.udfKeySet)
    (ignored : ∀ key, key ∈ r.state.ignoredUdfUintKeys ↔
      key ∈ st.ignoredUdfUintKeys ∨ cond.Ignores v key)
    (saved : (r.state.udfUintKey2Meta = st.udfUintKey2Meta ∧ ∀ key m, ¬ cond.Saves v key m) ∨
      ∃ key m, cond.Saves v key m ∧
        r.state.udfUintKey2Meta = Function.update st.udfUintKey2Meta key (some m)) :
    Checks s v st cond (some (r, t))

theorem checkVersionCond_checks {key : KeyType} (hv : s.Shows fromProxy v key) (version : ℕ) (op : CompareOp) :
    Checks s v st (.versionCond key version op)
      ((checkVersionCond fromProxy st key version op).run Stores.answer s) := by
  obtain ⟨u, hsu, hread⟩ := run_readKVFrom s fromProxy key
  rw [checkVersionCond, Program.run_bind, hread, Option.bind_some, hv.1]
  dsimp only
  cases hok : (v.lookup key).1.isOK with
  | false =>
    refine .fails hsu rfl rfl fun _ => ⟨?_, id⟩
    simp [HoldsOn, hok]
  | true =>
    by_cases hop : op = .EQUAL
    · by_cases hv : version = (v.lookup key).2.version
      · simp only [hop, hv, Bool.not_true, Bool.false_eq_true, if_false, if_true, ne_eq,
          not_true_eq_false]
        refine .passes hsu rfl hok (by simp [Fresh, userMetaKey]) ⟨rfl, hok, rfl⟩ id rfl (fun k => ?_)
          (.inl ⟨rfl, fun _ _ => id⟩)
        simp [Ignores]
      · simp only [hop, hv, Bool.not_true, Bool.false_eq_true, if_false, if_true, ne_eq,
          not_false_eq_true]
        exact .fails hsu rfl rfl fun _ => ⟨fun h => hv h.2.2.symm, id⟩
    · simp only [hop, Bool.not_true, Bool.false_eq_true, if_false]
      exact .fails hsu rfl rfl fun _ => ⟨fun h => hop h.1, id⟩

theorem checkExistCond_checks {key : KeyType} (hv : s.Shows fromProxy v key) (shouldExist : Bool) :
    Checks s v st (.existCond key shouldExist)
      ((checkExistCond fromProxy st key shouldExist).run Stores.answer s) := by
  obtain ⟨u, hsu, hread⟩ := run_readKVFrom s fromProxy key
  rw [checkExistCond, Program.run_bind, hread, Option.bind_some, hv.1]
  dsimp only
  have hpass (hholds : (Precondition.existCond key shouldExist).HoldsOn v) :
      Checks s v st (.existCond key shouldExist) (some (⟨.ok, false, st⟩, u)) :=
    .passes hsu rfl rfl (by simp [Fresh, userMetaKey]) hholds id rfl (fun k => by simp [Ignores])
      (.inl ⟨rfl, fun _ _ => id⟩)
  have hfail (hholds : ¬ (Precondition.existCond key shouldExist).HoldsOn v) (msg : String) :
      Checks s v st (.existCond key shouldExist)
        (some (⟨.precondUnmatched msg, true, st⟩, u)) :=
    .fails hsu rfl rfl fun _ => ⟨hholds, id⟩
  cases shouldExist with
  | true =>
    cases hok : (v.lookup key).1.isOK with
    | true => exact hpass (by simp [HoldsOn, hok])
    | false => exact hfail (by simp [HoldsOn, hok]) _
  | false =>
    cases hnf : (v.lookup key).1.isNotFound with
    | true => exact hpass (by simp [HoldsOn, hnf])
    | false => exact hfail (by simp [HoldsOn, hnf]) _

theorem compareUint_checks {key : KeyType} (hst : s.SweptOn [key] t) {stored provided : UserDefinedMeta}
    {pos : ℕ} {op : CompareOp} (hfresh : key ∉ st.udfKeySet)
    (hfound : v.udfMeta key = some stored) :
    Checks s v st (.userMetaCond key .NUM provided pos op)
      ((compareUint .ok { st with udfKeySet := key :: st.udfKeySet } key stored provided pos op).run
        Stores.answer t) := by
  have hmeta : ∀ m, v.udfMeta key = some m → m = stored := fun m hm =>
    Option.some.inj (hm.symm.trans hfound)
  have hf : (Precondition.userMetaCond key .NUM provided pos op).Fresh st.udfKeySet := by
    simpa [Fresh, userMetaKey] using hfresh
  have hrefused (h : ¬ (Precondition.userMetaCond key .NUM provided pos op).HoldsOn v)
      (hin : ¬ (Precondition.userMetaCond key .NUM provided pos op).ReadsPast v)
      {status : Status} {st' : CondState} (hbad : status.isOK = false) :
      Checks s v st (.userMetaCond key .NUM provided pos op)
        (some (⟨status, true, st'⟩, t)) :=
    .fails hst rfl hbad fun _ => ⟨h, hin⟩
  by_cases hpos : pos < provided.uintField.length
  swap
  · have hlen : pos ≥ provided.uintField.length := Nat.not_lt.mp hpos
    have hout : compareUint .ok { st with udfKeySet := key :: st.udfKeySet } key stored provided pos op
        = .ret ⟨.error "out of index error", true, { st with udfKeySet := key :: st.udfKeySet }⟩ := by
      by_cases hnil : stored.uintField = [] <;> simp [compareUint, hnil, hlen]
    rw [hout]
    exact hrefused (fun h => hpos (h stored hfound).2.2.1) (fun h => hpos h.2.1) rfl
  by_cases hnil : stored.uintField = []
  · simp only [compareUint, hnil, true_and, not_true_eq_false, false_and, if_false, ge_iff_le,
      Nat.not_le.mpr hpos, ne_eq, List.getElem?_nil, Program.run_abort]
    exact .past hf ⟨rfl, hpos, stored, hfound, hnil⟩
  have hinside : ¬ (Precondition.userMetaCond key .NUM provided pos op).ReadsPast v := by
    rintro ⟨-, -, m, hm, hmnil⟩
    exact hnil (hmeta m hm ▸ hmnil)
  by_cases hstored : pos < stored.uintField.length
  swap
  · simp only [compareUint, hnil, false_and, if_false, ne_eq, not_false_eq_true, true_and, ge_iff_le,
      Nat.not_lt.mp hstored, true_or, if_true]
    exact hrefused (fun h => hstored ((h stored hfound).2.2.2 hnil)) hinside rfl
  have hread : compareUint .ok { st with udfKeySet := key :: st.udfKeySet } key stored provided pos op
      = if op = .GREATER then
          if provided.uintField[pos] ≤ stored.uintField[pos] then
            .ret ⟨.ok, false, { st with
              udfKeySet := key :: st.udfKeySet
              ignoredUdfUintKeys := key :: st.ignoredUdfUintKeys }⟩
          else .ret ⟨.ok, false, { st with
              udfKeySet := key :: st.udfKeySet
              udfUintKey2Meta := Function.update st.udfUintKey2Meta key (some provided) }⟩
        else .ret ⟨.notSupported "", true, { st with udfKeySet := key :: st.udfKeySet }⟩ := by
    simp [compareUint, hnil, hpos, hstored, Nat.not_le.mpr hpos, Nat.not_le.mpr hstored]
  rw [hread]
  by_cases hop : op = .GREATER
  swap
  · rw [if_neg hop]
    exact hrefused (fun h => hop (h stored hfound).2.1) hinside rfl
  have hholds : (Precondition.userMetaCond key .NUM provided pos op).HoldsOn v := by
    intro m hm
    rw [hmeta m hm]
    exact ⟨rfl, hop, hpos, fun _ => hstored⟩
  have hign (k : KeyType) :
      (Precondition.userMetaCond key .NUM provided pos op).Ignores v k ↔
        key = k ∧ provided.uintField[pos] ≤ stored.uintField[pos] := by
    constructor
    · rintro ⟨rfl, m, e, p, hm, he, hp, hle⟩
      rw [hmeta m hm, List.getElem?_eq_getElem hstored] at he
      rw [List.getElem?_eq_getElem hpos] at hp
      cases he
      cases hp
      exact ⟨rfl, hle⟩
    · rintro ⟨rfl, hle⟩
      exact ⟨rfl, stored, _, _, hfound, List.getElem?_eq_getElem hstored,
        List.getElem?_eq_getElem hpos, hle⟩
  rw [if_pos hop]
  split_ifs with hle
  · refine .passes hst rfl rfl hf hholds hinside rfl (fun k => ?_) (.inl ⟨rfl, fun k m => ?_⟩)
    · simp [hign, hle, or_comm, eq_comm]
    · rintro ⟨rfl, -, n, e, p, hn, he, hp, hlt⟩
      rw [hmeta n hn, List.getElem?_eq_getElem hstored] at he
      rw [List.getElem?_eq_getElem hpos] at hp
      cases he
      cases hp
      omega
  · refine .passes hst rfl rfl hf hholds hinside rfl (fun k => ?_) (.inr ⟨key, provided, ?_, rfl⟩)
    · simp [hign, hle]
    · exact ⟨rfl, rfl, stored, _, _, hfound, List.getElem?_eq_getElem hstored,
        List.getElem?_eq_getElem hpos, Nat.lt_of_not_le hle⟩

theorem checkUserMetaCond_checks {key : KeyType} (hv : s.Shows fromProxy v key) (metaType : UdfMetaType)
    (provided : UserDefinedMeta) (pos : ℕ)
    (op : CompareOp) :
    Checks s v st (.userMetaCond key metaType provided pos op)
      ((checkUserMetaCond fromProxy st key metaType provided pos op).run Stores.answer s) := by
  have hself : s.SweptOn [key] s := ⟨.refl s, fun _ _ => rfl⟩
  by_cases hdup : key ∈ st.udfKeySet
  · rw [checkUserMetaCond, if_pos hdup]
    exact .fails hself rfl rfl fun hf => absurd hdup (hf key (by simp [userMetaKey]))
  have hf : (Precondition.userMetaCond key metaType provided pos op).Fresh st.udfKeySet := by
    simpa [Fresh, userMetaKey] using hdup
  obtain ⟨u, hsu, hread⟩ := run_readKVFrom s fromProxy key
  rw [checkUserMetaCond, if_neg hdup, Program.run_bind, hread, Option.bind_some, hv.1]
  dsimp only
  -- a condition on a key that is not found with a user defined meta says nothing
  have hvacuous (hnone : v.udfMeta key = none) :
      Checks s v st (.userMetaCond key metaType provided pos op)
        (some (⟨.ok, false, { st with udfKeySet := key :: st.udfKeySet }⟩, u)) := by
    have hno (m : UserDefinedMeta) : ¬ v.udfMeta key = some m := by simp [hnone]
    refine .passes hsu rfl rfl hf (fun m hm => absurd hm (hno m)) ?_ rfl (fun k => ?_)
      (.inl ⟨rfl, fun k m => ?_⟩)
    · rintro ⟨-, -, m, hm, -⟩
      exact hno m hm
    · refine ⟨.inl, fun h => h.resolve_right ?_⟩
      rintro ⟨rfl, m, -, -, hm, -⟩
      exact hno m hm
    · rintro ⟨rfl, -, n, -, -, hn, -⟩
      exact hno n hn
  cases hnf : (v.lookup key).1.isNotFound with
  | true => exact hvacuous (by rw [← hv.2]; simp [Stores.reads, hv.1, hnf])
  | false =>
    have hmeta : (u.lookupMeta fromProxy key).2.udfMeta = v.udfMeta key := by
      rw [← hv.2, hsu.lookupMeta_eq (by rw [hv.1, hnf])]
      simp [Stores.reads, hv.1, hnf]
    simp only [Bool.false_eq_true, if_false, Program.run_bind, run_readMetaFrom_lookup,
      Option.bind_some]
    cases hm : (u.lookupMeta fromProxy key).2.udfMeta with
    | none => exact hvacuous (hmeta.symm.trans hm)
    | some stored =>
      have hfound := hmeta.symm.trans hm
      simp only [lookupMeta_isOK_of_udfMeta hm, Status.isNotFound_ok, Bool.false_eq_true, if_false]
      by_cases hnum : metaType = .NUM
      · subst hnum
        rw [if_pos rfl]
        exact compareUint_checks hsu hdup hfound
      · rw [if_neg hnum]
        exact .fails hsu rfl rfl fun _ => ⟨fun h => hnum (h stored hfound).1, fun h => hnum h.1⟩

theorem checkCond_checks (st : CondState) (cond : Precondition)
    (hv : ∀ key ∈ condKey cond, s.Shows fromProxy v key) :
    Checks s v st cond ((checkCond fromProxy st cond).run Stores.answer s) := by
  cases cond with
  | versionCond key version op => exact checkVersionCond_checks (hv key List.mem_cons_self) version op
  | existCond key shouldExist => exact checkExistCond_checks (hv key List.mem_cons_self) shouldExist
  | userMetaCond key metaType udfMeta pos op =>
    exact checkUserMetaCond_checks (hv key List.mem_cons_self) metaType udfMeta pos op
  | unset => exact .fails (.refl s) rfl rfl fun _ => ⟨id, id⟩

/-- A second condition on the user defined meta of a key is refused before anything is read. -/
theorem checkCond_of_not_fresh {cond : Precondition} (h : ¬ cond.Fresh st.udfKeySet) :
    Checks s v st cond ((checkCond fromProxy st cond).run Stores.answer s) := by
  cases cond with
  | userMetaCond key metaType udfMeta pos op =>
    have hdup : key ∈ st.udfKeySet := by simpa [Fresh, userMetaKey] using h
    simp only [checkCond, checkUserMetaCond, if_pos hdup]
    exact .fails ⟨.refl s, fun _ _ => rfl⟩ rfl rfl fun hf => absurd hf h
  | _ => exact absurd (by simp [Fresh, userMetaKey]) h

/-- All conditions hold and bring no key that was seen before them. -/
def HoldFrom (v : View) (seen : List KeyType) (conds : List Precondition) :
    Prop :=
  AllHold v conds ∧ (conds.flatMap userMetaKey).Disjoint seen

theorem holdFrom_cons {seen : List KeyType} {cond : Precondition} {conds : List Precondition} :
    HoldFrom v seen (cond :: conds) ↔ cond.Fresh seen ∧ cond.HoldsOn v ∧
      HoldFrom v (cond.userMetaKey ++ seen) conds := by
  have hone : cond.userMetaKey.Nodup := by cases cond <;> simp [userMetaKey]
  constructor
  · rintro ⟨⟨hholds, hnodup⟩, hdis⟩
    rw [List.flatMap_cons, List.disjoint_append_left] at hdis
    rw [List.flatMap_cons, List.nodup_append'] at hnodup
    refine ⟨fun k hk hs => hdis.1 hk hs, hholds cond List.mem_cons_self,
      ⟨fun c hc => hholds c (List.mem_cons_of_mem _ hc), hnodup.2.1⟩, ?_⟩
    exact List.disjoint_append_right.mpr ⟨List.disjoint_comm.mp hnodup.2.2, hdis.2⟩
  · rintro ⟨hfresh, hhead, ⟨hholds, hnodup⟩, hdis⟩
    rw [List.disjoint_append_right] at hdis
    refine ⟨⟨List.forall_mem_cons.mpr ⟨hhead, hholds⟩, ?_⟩, ?_⟩
    · rw [List.flatMap_cons, List.nodup_append']
      exact ⟨hone, hnodup, List.disjoint_comm.mp hdis.1⟩
    · rw [List.flatMap_cons, List.disjoint_append_left]
      exact ⟨fun k hk hs => hfresh k hk hs, hdis.2⟩

/-- What the check returns, when it returns. -/
structure Verdict (v : View) (st : CondState) (conds : List Precondition)
    (status : Status) (st' : CondState) : Prop where
  ok_iff : status.isOK ↔ HoldFrom v st.udfKeySet conds
  ignored : status.isOK → ∀ key, key ∈ st'.ignoredUdfUintKeys ↔
    key ∈ st.ignoredUdfUintKeys ∨ ∃ cond ∈ conds, cond.Ignores v key
  saved : status.isOK → ∀ key m, st'.udfUintKey2Meta key = some m ↔
    (∃ cond ∈ conds, cond.Saves v key m) ∨
      st.udfUintKey2Meta key = some m ∧ ∀ cond ∈ conds, ∀ n, ¬ cond.Saves v key n

/-- Each condition that is reached sees the stores as the view says, after the reads before it. -/
def SeenAs (s : Stores) (fromProxy : Bool) (v : View) : List KeyType → List KeyType → List Precondition → Prop
  | _, _, [] => True
  | seen, read, cond :: conds => cond.Fresh seen →
      (∀ t, s.SweptOn read t → ∀ key ∈ condKey cond, t.Shows fromProxy v key) ∧
      (cond.HoldsOn v → SeenAs s fromProxy v (cond.userMetaKey ++ seen) (condKey cond ++ read) conds)

/-- Induction on the conditions that are left; the stores have only been read so far. -/
theorem checkPrecond_verdict (conds : List Precondition) {read : List KeyType} (hst : s.SweptOn read t)
    (status : Status) (hok : status.isOK) (st : CondState) (hv : SeenAs s fromProxy v st.udfKeySet read conds) :
    (InBounds v st.udfKeySet conds → ∃ status' st' t',
      (checkPrecond fromProxy conds status st).run Stores.answer t = some ((status', st'), t') ∧
        Verdict v st conds status' st') ∧
    (¬ InBounds v st.udfKeySet conds →
      (checkPrecond fromProxy conds status st).run Stores.answer t = none) := by
  induction conds generalizing status st t read with
  | nil =>
    refine ⟨fun _ => ⟨status, st, t, rfl, ?_, fun _ key => by simp, fun _ key m => by simp⟩,
      fun h => absurd trivial h⟩
    exact iff_of_true hok ⟨⟨by simp, by simp⟩, by simp⟩
  | cons cond conds ih =>
    have hrun : Checks t v st cond ((checkCond fromProxy st cond).run Stores.answer t) := by
      by_cases hfresh : cond.Fresh st.udfKeySet
      · exact checkCond_checks st cond ((hv hfresh).1 t hst)
      · exact checkCond_of_not_fresh hfresh
    simp only [checkPrecond, Program.run_bind]
    cases hres : (checkCond fromProxy st cond).run Stores.answer t with
    | none =>
      rw [hres] at hrun
      cases hrun with
      | past hfresh hpast => exact ⟨fun hin => absurd hpast (hin hfresh).1, fun _ => rfl⟩
    | some rt =>
      rw [hres] at hrun
      simp only [Option.bind_some]
      cases hrun with
      | fails hswept hstop hbad hfails =>
        simp only [hstop, if_true]
        refine ⟨fun _ => ⟨_, _, _, rfl, ?_, ?_, ?_⟩, fun hout => (hout fun hfresh => ?_).elim⟩
        · rw [hbad, holdFrom_cons]
          exact iff_of_false (by simp) fun h => (hfails h.1).1 h.2.1
        · simp [hbad]
        · simp [hbad]
        · exact ⟨(hfails hfresh).2, fun h => absurd h (hfails hfresh).1⟩
      | @passes r u hswept hstop hstatus hfresh hholds hinside hseen hignored hsaved =>
        simp only [hstop, Bool.false_eq_true, if_false]
        have hrest := ih (hst.trans hswept) r.status hstatus r.state (hseen ▸ (hv hfresh).2 hholds)
        rw [hseen] at hrest
        refine ⟨fun hin => ?_, fun hout => hrest.2 fun hin => hout fun _ => ⟨hinside, fun _ => hin⟩⟩
        obtain ⟨status', st', t', hrun, hiff, hign, hsave⟩ := hrest.1 ((hin hfresh).2 hholds)
        refine ⟨status', st', t', hrun, ?_, fun hok' key => ?_, fun hok' key m => ?_⟩
        · rw [hiff, hseen, holdFrom_cons]
          exact ⟨fun h => ⟨hfresh, hholds, h⟩, fun h => h.2.2⟩
        · rw [hign hok' key, hignored key, List.exists_mem_cons_iff, or_assoc]
        · rw [hsave hok' key m, List.exists_mem_cons_iff]
          have hlater := (hiff.mp hok').2
          rw [hseen, List.disjoint_append_right] at hlater
          have hone (n n' : UserDefinedMeta) (hn : cond.Saves v key n) :
              ¬ ∃ c ∈ conds, c.Saves v key n' := fun ⟨c, hc, hn'⟩ =>
            hlater.1 (List.mem_flatMap.mpr ⟨c, hc, hn'.mem_userMetaKey⟩) hn.mem_userMetaKey
          rw [List.forall_mem_cons]
          rcases hsaved with ⟨hsame, hnone⟩ | ⟨key₀, m₀, hs₀, hupdate⟩
          · simp [hsame, hnone]
          · by_cases hkey : key = key₀
            · subst hkey
              have hm : cond.Saves v key m ↔ m₀ = m :=
                ⟨fun h => (h.unique hs₀).2.symm, fun h => h ▸ hs₀⟩
              have hnot : ∀ c ∈ conds, ∀ n, ¬ c.Saves v key n := fun c hc n hn =>
                hone m₀ n hs₀ ⟨c, hc, hn⟩
              have hst : ¬ ∀ n, ¬ cond.Saves v key n := fun h => h m₀ hs₀
              rw [hupdate, Function.update_self, hm]
              simp only [hone m₀ m hs₀, hst, false_and, and_false, or_false, false_or,
                Option.some.injEq]
              exact and_iff_left hnot
            · have hnone (n : UserDefinedMeta) : ¬ cond.Saves v key n := fun h =>
                hkey (h.unique hs₀).1
              simp [hupdate, hkey, hnone]

theorem seenAs_of_readsSteady {seen read : List KeyType} {conds : List Precondition}
    (h : ReadsSteady s fromProxy seen read conds) : SeenAs s fromProxy (s.view fromProxy) seen read conds := by
  induction conds generalizing seen read with
  | nil => trivial
  | cons cond conds ih =>
    intro hfresh
    obtain ⟨hsteady, hrest⟩ := h hfresh
    exact ⟨fun t ht key hkey => ht.shows (hsteady key hkey), fun hholds => ih (hrest hholds)⟩

/-- The check returns without reading outside a list, passes exactly the conditions that hold, and
then ignores exactly the keys whose stored number is not smaller. -/
def Exact (s : Stores) (fromProxy : Bool) (conds : List Precondition) : Prop :=
  ∃ status st t,
    (checkPrecond fromProxy conds .ok {}).run Stores.answer s = some ((status, st), t) ∧
      (status.isOK ↔ AllHold (s.view fromProxy) conds) ∧
      (status.isOK → ∀ key, key ∈ st.ignoredUdfUintKeys ↔
        ∃ cond ∈ conds, cond.Ignores (s.view fromProxy) key)

theorem checkPrecond_exact_iff (s : Stores) (fromProxy : Bool) (conds : List Precondition)
    (hs : ReadsSteady s fromProxy [] [] conds) :
    Exact s fromProxy conds ↔ InBounds (s.view fromProxy) [] conds := by
  obtain ⟨hinside, houtside⟩ := checkPrecond_verdict conds (.refl s) .ok rfl {} (seenAs_of_readsSteady hs)
  constructor
  · rintro ⟨status, st, t, hrun, -⟩
    by_contra hout
    rw [houtside hout] at hrun
    cases hrun
  · intro hin
    obtain ⟨status, st, t, hrun, hiff, hign, -⟩ := hinside hin
    refine ⟨status, st, t, hrun, hiff.trans ?_, fun hok key => ?_⟩
    · simp [HoldFrom]
    · simpa using hign hok key

/-- A record whose user defined meta is the given one. -/
def storedWith (udfMeta : UserDefinedMeta) : Stores where
  db := { mRocksDB := fun key => if key = "a" then some { value := "v", version := 1, udfMeta } else none }

def greaterThan (number : ℕ) : Precondition :=
  .userMetaCond "a" .NUM { uintField := [number] } 0 .GREATER

theorem storedNumber_exact :
    ReadsSteady (storedWith { uintField := [5] }) false [] [] [greaterThan 7] ∧
      Exact (storedWith { uintField := [5] }) false [greaterThan 7] := by
  have hs : ReadsSteady (storedWith { uintField := [5] }) false [] [] [greaterThan 7] := by
    refine fun _ => ⟨fun key hkey => ⟨fun _ _ r hr => ?_, fun _ hread => by cases hread⟩, fun _ => trivial⟩
    obtain rfl := List.mem_singleton.mp hkey
    cases hr
    decide
  refine ⟨hs, (checkPrecond_exact_iff _ _ _ hs).mpr fun _ => ⟨?_, fun _ => trivial⟩⟩
  rintro ⟨-, -, m, hm, hnil⟩
  cases hm
  cases hnil

/-- An expired cell over an older record of the same key. -/
def expiredOverOlder : Stores where
  mem :=
    { mData := fun key =>
        if key = "a" then some { value := "v", version := 2, ttl := 1, deadline := 5 } else none
      disjoint := by simp }
  db := { mRocksDB := fun key => if key = "a" then some { value := "u", version := 1 } else none }
  now := 9

/-- A stored meta with names only is read at position 0; and the first of two reads erases an expired
cell, so that the key is both absent and present. -/
theorem checkPrecond_inexact :
    ¬ Exact (storedWith { strField := ["n"] }) false [greaterThan 7] ∧
      ¬ Exact expiredOverOlder false [.existCond "a" false, .existCond "a" true] := by
  refine ⟨?_, ?_⟩
  · rintro ⟨status, st, t, hrun, -⟩
    cases hrun
  · rintro ⟨status, st, t, hrun, hiff, -⟩
    have hok : status = .ok := congrArg (·.1.1) (Option.some.inj hrun).symm
    subst hok
    have hholds := (hiff.mp rfl).holds (.existCond "a" true) (by simp)
    exact absurd (show (expiredOverOlder.lookup false "a").1.isOK = true from hholds) (by decide)

end KVTransCommand

end Goblin.Model
