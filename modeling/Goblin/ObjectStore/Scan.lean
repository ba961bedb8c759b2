import Goblin.Command.PrecondExact
import Goblin.Execution.Import

/-! `ScanCommand` and the entries of an `ExportTask`: what of a stored record reaches the target of a
migration. -/
namespace Goblin.ObjectStore

open Model Lib Store Option

/-- The tuple that an iterator and a read fill in. -/
structure KVTuple where
  key : KeyType
  value : ValueType := ""
  ttl : ℕ := INFINITE_TTL
  version : ℕ := kInvalidVersion
  deriving DecidableEq, Repr

/-- The tuple of a `ScanResponse`: its third component is a `VersionType`, its fourth a `TTLType`. -/
structure ScannedTuple where
  key : KeyType
  value : ValueType
  third : ℕ
  fourth : ℕ
  deriving DecidableEq, Repr

/-- Moving a tuple into the response goes component by component: the ttl becomes the `VersionType`, and
the version the `TTLType`, which has 32 bits. -/
def KVTuple.toScanned (t : KVTuple) : ScannedTuple where
  key := t.key
  value := t.value
  third := t.ttl
  fourth := t.version % 2 ^ 32

/-- `RocksDBKVStoreIterator::get`; whether the record has timed out is not looked at. -/
def iteratorGet (kv : KeyType × Record) : KVTuple := ⟨kv.1, kv.2.value, kv.2.ttl, kv.2.version⟩

structure ScanResult where
  status : Status := .ok
  mData : List ScannedTuple := []
  mIterator : Option (List (KeyType × Record)) := none
  events : List Event := []

namespace ScanCommand

/-- The newest tuple. The key and the value have been moved away when they are looked at. -/
def maxRead (ts : List KVTuple) : ReadEvent :=
  ts.foldl (fun e t => if t.version > e.mVersion then { e with mTTL := t.ttl, mVersion := t.version } else e)
    ⟨"", "", INFINITE_TTL, kInvalidVersion, false, NOT_UPDATED, DEFAULT_UDFMETA⟩

/-- The response is a new one, so that every call starts at the first record of a new snapshot. -/
def iterateAll (snapshot : List (KeyType × Record)) (maxScanBatch : ℕ) : ScanResult :=
  let ts := (snapshot.take maxScanBatch).map iteratorGet
  { mData := ts.map KVTuple.toScanned
    mIterator := some (snapshot.drop maxScanBatch)
    events := if ts = [] then [] else [.read (maxRead ts)] }

/-- One turn of the loop over specific keys; a key that is not found is scanned with what it has. -/
def scanKey (key : KeyType) : StoreProg (Except Status KVTuple) := do
  let (s, out) ← readKV key {}
  if s.isOK ∨ s.isNotFound then return .ok ⟨key, out.value, out.ttl, out.version⟩
  else return .error s

def scanKeys : List KeyType → StoreProg (Status × List ScannedTuple)
  | [] => return (.ok, [])
  | key :: keys => do
    match ← scanKey key with
    | .error s => return (s, [])
    | .ok t => do
      let (s, ts) ← scanKeys keys
      return (s, t.toScanned :: ts)

/-- The counter of the loop is never raised, so there is no event; nor is there an iterator. -/
def iterateSpecificKeys (keys : List KeyType) : StoreProg ScanResult := do
  let (s, ts) ← scanKeys keys
  return { status := s, mData := ts }

end ScanCommand

namespace ExportTask

/-- The components are bound by position, as ttl and version. -/
def exportEntry (t : ScannedTuple) : ImportEntry where
  key := t.key
  value := t.value
  enableTTL := t.third ≠ INFINITE_TTL
  ttl := t.third
  version := t.fourth

/-- The entries of the `MigrateBatch` request. -/
def exportLocalKeys (mData : List ScannedTuple) : List ImportEntry := mData.map exportEntry

end ExportTask

/-- When a record times out, if it ever does. -/
def expiresAt (r : Record) : Option ℕ := if r.ttl = INFINITE_TTL then none else some r.deadline

/-- The import of the entry writes the record as it was: its value, its version, its deadline and its user
defined fields. -/
def Intact (target : Stores) (key : KeyType) (r : Record) (e : ImportEntry) : Prop :=
  ∃ i : ImportEvent, (KVImportCommand.execute e).run Stores.answer target =
      some ({ status := .ok, events := [.importKV i] }, target) ∧
    ∃ r', ((Event.importKV i).setVersion i.mImportedVersion).effect = some (key, some r') ∧
      r'.value = r.value ∧ r'.version = r.version ∧ expiresAt r' = expiresAt r ∧ r'.udfMeta = r.udfMeta

/-- The record a read of the key finds, with the user defined fields that belong to it. -/
def storedRecord (s : Stores) (key : KeyType) : Option Record :=
  match s.mem.mData key with
  | some c =>
    if isTimeOut s.now c.deadline c.ttl then none
    else some ⟨c.value, c.version, c.ttl, c.deadline, c.updateTime,
      (s.mem.mUdfMetaMap key).getD DEFAULT_UDFMETA⟩
  | none =>
    if (s.mem.mDeletedData key).isSome ∨ (s.db.mGetError key).isSome then none
    else (s.db.mRocksDB key).bind fun r => if isTimeOut s.now r.deadline r.ttl then none else some r

/-- What it takes for a record to survive the way to the target: a version of 32 bits, no user defined
fields, and no ttl or one that is reported by the scan and, counted from the import, ends at the deadline. -/
def Survives (reported : Bool) (now : ℕ) (r : Record) : Prop :=
  r.version < 2 ^ 32 ∧ r.udfMeta = DEFAULT_UDFMETA ∧
    (r.ttl = INFINITE_TTL ∨ reported = true ∧ addDeadline r.ttl now = r.deadline)

section Survival

variable {target : Stores} {key : KeyType} {r : Record}

/-- An exported entry enables the ttl only if it gives one, so an import does not look for another. -/
theorem run_import_exportEntry (target : Stores) (t : ScannedTuple) :
    (KVImportCommand.execute (ExportTask.exportEntry t)).run Stores.answer target =
      some ({ status := .ok, events := [.importKV (newImportEvent (ExportTask.exportEntry t)
        (t.third ≠ INFINITE_TTL) t.third target.now)] }, target) := by
  by_cases httl : t.third = INFINITE_TTL <;>
    simp [KVImportCommand.execute, fixTTL, ExportTask.exportEntry, httl]

theorem intact_exportEntry_iff {t : ScannedTuple} (hkey : t.key = key) :
    Intact target key r (ExportTask.exportEntry t) ↔
      t.value = r.value ∧ t.fourth = r.version ∧
        (if t.third = INFINITE_TTL then none else some (addDeadline t.third target.now)) = expiresAt r ∧
        DEFAULT_UDFMETA = r.udfMeta := by
  have hrun := run_import_exportEntry target t
  have heffect : ((Event.importKV (newImportEvent (ExportTask.exportEntry t) (t.third ≠ INFINITE_TTL)
      t.third target.now)).setVersion t.fourth).effect = some (key, some
        { value := t.value
          version := t.fourth
          ttl := t.third
          deadline := if t.third = INFINITE_TTL then NEVER_EXPIRE else addDeadline t.third target.now }) := by
    by_cases httl : t.third = INFINITE_TTL <;>
      simp [Event.setVersion, Event.effect, newImportEvent, ExportTask.exportEntry, WriteEvent.record, httl, hkey]
  constructor
  · rintro ⟨i, hi, r', hr', hvalue, hversion, hexpires, hudf⟩
    have hevent := hrun.symm.trans hi
    simp only [Option.some.injEq, Prod.mk.injEq, ExecResult.mk.injEq, List.cons.injEq, Event.importKV.injEq,
      and_true, true_and] at hevent
    subst hevent
    cases heffect.symm.trans hr'
    refine ⟨hvalue, hversion, ?_, hudf⟩
    rw [← hexpires, expiresAt]
    by_cases httl : t.third = INFINITE_TTL <;> simp [httl]
  · rintro ⟨hvalue, hversion, hexpires, hudf⟩
    refine ⟨_, hrun, _, heffect, hvalue, hversion, ?_, hudf⟩
    rw [← hexpires, expiresAt]
    by_cases httl : t.third = INFINITE_TTL <;> simp [httl]

theorem intact_scanned_iff (target : Stores) (key : KeyType) (r : Record) (reported : Bool) :
    Intact target key r (ExportTask.exportEntry
      (KVTuple.toScanned ⟨key, r.value, if reported then r.ttl else INFINITE_TTL, r.version⟩)) ↔
      Survives reported target.now r := by
  refine (intact_exportEntry_iff rfl).trans ?_
  have hversion : r.version % 2 ^ 32 = r.version ↔ r.version < 2 ^ 32 :=
    ⟨fun h => h ▸ Nat.mod_lt _ (by decide), Nat.mod_eq_of_lt⟩
  have hexpires : (if (if reported then r.ttl else INFINITE_TTL) = INFINITE_TTL then none
      else some (addDeadline (if reported then r.ttl else INFINITE_TTL) target.now)) = expiresAt r ↔
      r.ttl = INFINITE_TTL ∨ reported = true ∧ addDeadline r.ttl target.now = r.deadline := by
    unfold expiresAt
    cases reported with
    | true | false => by_cases httl : r.ttl = INFINITE_TTL <;> simp [httl]
  constructor
  · rintro ⟨-, hv, he, hu⟩
    exact ⟨hversion.mp hv, hu.symm, hexpires.mp he⟩
  · rintro ⟨hv, hu, he⟩
    exact ⟨rfl, hversion.mpr hv, hexpires.mpr he, hu.symm⟩

end Survival

section ByKey

variable {s t : Stores} {key : KeyType} {keys : List KeyType} {r : Record}

theorem readKV_of_stored (h : storedRecord s key = some r) :
    s.readKV key =
      (.ok, ⟨r.value, if (s.mem.mData key).isSome then r.ttl else INFINITE_TTL, r.version⟩) := by
  unfold storedRecord at h
  unfold Stores.readKV InMemoryKVStore.readKV
  cases hm : s.mem.mData key with
  | some c =>
    by_cases ht : isTimeOut s.now c.deadline c.ttl
    · simp [hm, ht] at h
    · have hr : r = ⟨c.value, c.version, c.ttl, c.deadline, c.updateTime,
          (s.mem.mUdfMetaMap key).getD DEFAULT_UDFMETA⟩ := by simpa [hm, ht] using h.symm
      simp [ht, hr]
  | none =>
    rw [hm] at h
    dsimp only at h
    split_ifs at h with hgone
    obtain ⟨hdel, herr⟩ := not_or.mp hgone
    obtain ⟨q, hq, hlive⟩ := bind_eq_some_iff.mp h
    split_ifs at hlive with ht
    cases hlive
    rw [not_isSome_iff_eq_none.mp hdel]
    simp [RocksDBKVStore.readKV, not_isSome_iff_eq_none.mp herr, hq, ht]

/-- The tuple that a turn of the loop makes of its read. -/
def readTuple (s : Stores) (key : KeyType) : KVTuple :=
  ⟨key, (s.readKV key).2.value, (s.readKV key).2.ttl, (s.readKV key).2.version⟩

theorem run_scanKey (s : Stores) (key : KeyType) :
    ∃ u, s.Swept u ∧ (ScanCommand.scanKey key).run Stores.answer s =
      some (if (s.readKV key).1.isOK ∨ (s.readKV key).1.isNotFound then .ok (readTuple s key)
        else .error (s.readKV key).1, u) := by
  refine ⟨(s.answer (.readKV key {})).2, s.swept_answer _, ?_⟩
  change Program.run Stores.answer (if (s.readKV key).1.isOK ∨ (s.readKV key).1.isNotFound then _ else _) _ = _
  split_ifs <;> rfl

/-- Each tuple of a scan stems from a read of its key; the reads before it have erased expired cells at
most. -/
theorem scanKeys_tuple {status : Status} {ts : List ScannedTuple}
    (h : (ScanCommand.scanKeys keys).run Stores.answer s = some ((status, ts), t)) {i : ℕ} {x : ScannedTuple}
    (hx : ts[i]? = some x) :
    ∃ key u, keys[i]? = some key ∧ s.Swept u ∧ x = (readTuple u key).toScanned := by
  induction keys generalizing s status ts i with
  | nil =>
    cases h
    cases hx
  | cons key keys ih =>
    obtain ⟨u, hu, hkey⟩ := run_scanKey s key
    obtain ⟨a, u', ha, hrest⟩ := Program.run_bind_eq_some.mp h
    cases hkey.symm.trans ha
    split_ifs at hrest with hfound
    · obtain ⟨⟨status', ts'⟩, v, hkeys, hret⟩ := Program.run_bind_eq_some.mp hrest
      cases hret
      cases i with
      | zero => exact ⟨key, s, rfl, .refl s, (Option.some.inj hx).symm⟩
      | succ i =>
        obtain ⟨key', w, hkey', hw, hxw⟩ := ih hkeys hx
        exact ⟨key', w, hkey', hu.trans hw, hxw⟩
    · cases hrest
      cases hx

end ByKey

/-- Which scanned records reach the target as they are: of those that are found by iteration, and of those
that are found by key in the cache or behind it. -/
theorem migrated_intact_iff (source target : Stores) :
    (∀ (snapshot : List (KeyType × Record)) (maxScanBatch i : ℕ) (x : ScannedTuple),
      (ScanCommand.iterateAll snapshot maxScanBatch).mData[i]? = some x →
      ∃ key r, snapshot[i]? = some (key, r) ∧
        (Intact target key r (ExportTask.exportEntry x) ↔ Survives true target.now r)) ∧
    ∀ (keys : List KeyType) (result : ScanResult) (source' : Stores),
      (ScanCommand.iterateSpecificKeys keys).run Stores.answer source = some (result, source') →
      ∀ (i : ℕ) (x : ScannedTuple), result.mData[i]? = some x →
      ∃ key s, keys[i]? = some key ∧ source.Swept s ∧ ∀ r, storedRecord s key = some r →
        (Intact target key r (ExportTask.exportEntry x) ↔
          Survives (s.mem.mData key).isSome target.now r) := by
  refine ⟨fun snapshot maxScanBatch i x hx => ?_, fun keys result source' hrun i x hx => ?_⟩
  · simp only [ScanCommand.iterateAll, List.getElem?_map, map_eq_some_iff] at hx
    obtain ⟨_, ⟨⟨key, r⟩, hkv, rfl⟩, rfl⟩ := hx
    have hi : snapshot[i]? = some (key, r) := by
      rw [List.getElem?_take] at hkv
      split_ifs at hkv
      exact hkv
    exact ⟨key, r, hi, intact_scanned_iff target key r true⟩
  · obtain ⟨⟨status, ts⟩, t, hkeys, hret⟩ := Program.run_bind_eq_some.mp hrun
    cases hret
    obtain ⟨key, s, hkey, hs, rfl⟩ := scanKeys_tuple hkeys hx
    refine ⟨key, s, hkey, hs, fun r hr => ?_⟩
    rw [readTuple, readKV_of_stored hr]
    exact intact_scanned_iff target key r _

/-- Written at second 100 with a ttl of 60. -/
def mortalRecord : Record := { value := "v", version := 5, ttl := 60, deadline := 160 }

/-- The record survives if it is imported in the second in which it was written, whether it is found by
iteration or by key in the cache. -/
theorem mortalRecord_survives :
    Intact { now := 100 } "k" mortalRecord (ExportTask.exportEntry ⟨"k", "v", 60, 5⟩) ∧
    ∃ s, storedRecord s "k" = some mortalRecord ∧
      Intact { now := 100 } "k" mortalRecord (ExportTask.exportEntry (readTuple s "k").toScanned) := by
  have hsurvives : Survives true 100 mortalRecord := ⟨by decide, rfl, .inr ⟨rfl, rfl⟩⟩
  let source : Stores := { mem := ({} : InMemoryKVStore).writeTTLKV "k" "v" 5 60 160 NOT_UPDATED {}, now := 100 }
  obtain ⟨hall, hkeys⟩ := migrated_intact_iff source { now := 100 }
  constructor
  · obtain ⟨key, r, hr, hiff⟩ := hall [("k", mortalRecord)] 100 0 ⟨"k", "v", 60, 5⟩ rfl
    cases hr
    exact hiff.mpr hsurvives
  · obtain ⟨key, s, hkey, hs, hiff⟩ := hkeys ["k"] _ _ rfl 0 ⟨"k", "v", 60, 5⟩ rfl
    cases hkey
    have hdata : s.mem.mData "k" = source.mem.mData "k" := by
      rcases hs.data "k" with hdata | ⟨-, c, hc, hto⟩
      · exact hdata
      · cases hc
        cases hto
    have hstored : storedRecord s "k" = some mortalRecord := by
      rw [storedRecord, hdata, hs.now, hs.udfMeta]
      rfl
    have htuple : (readTuple s "k").toScanned = ⟨"k", "v", 60, 5⟩ := by
      rw [readTuple, readKV_of_stored hstored, hdata]
      rfl
    refine ⟨s, hstored, ?_⟩
    rw [htuple]
    exact (hiff _ hstored).mpr (by rw [hdata]; exact hsurvives)

def wideRecord : Record := { value := "v", version := 2 ^ 32 + 5 }

def taggedRecord : Record := { value := "v", version := 5, udfMeta := ⟨[7], []⟩ }

def flushedMortal : Stores :=
  { db := { mRocksDB := fun k => if k = "k" then some mortalRecord else none }, now := 100 }

/-- A version of 33 bits is cut, a deadline moves with the time of the import, user defined fields are
dropped, and a record that is found by key in RocksDB loses its ttl. -/
theorem records_altered :
    ((ScanCommand.iterateAll [("k", wideRecord)] 100).mData = [⟨"k", "v", 0, 5⟩] ∧
      ¬ Intact {} "k" wideRecord (ExportTask.exportEntry ⟨"k", "v", 0, 5⟩)) ∧
    ((ScanCommand.iterateAll [("k", mortalRecord)] 100).mData = [⟨"k", "v", 60, 5⟩] ∧
      ¬ Intact { now := 130 } "k" mortalRecord (ExportTask.exportEntry ⟨"k", "v", 60, 5⟩)) ∧
    ((ScanCommand.iterateAll [("k", taggedRecord)] 100).mData = [⟨"k", "v", 0, 5⟩] ∧
      ¬ Intact {} "k" taggedRecord (ExportTask.exportEntry ⟨"k", "v", 0, 5⟩)) ∧
    storedRecord flushedMortal "k" = some mortalRecord ∧
    (∃ result, (ScanCommand.iterateSpecificKeys ["k"]).run Stores.answer flushedMortal =
        some (result, flushedMortal) ∧ result.mData = [⟨"k", "v", 0, 5⟩]) ∧
    ¬ Intact { now := 100 } "k" mortalRecord (ExportTask.exportEntry ⟨"k", "v", 0, 5⟩) := by
  refine ⟨⟨rfl, fun h => ?_⟩, ⟨rfl, fun h => ?_⟩, ⟨rfl, fun h => ?_⟩, rfl, ⟨_, rfl, rfl⟩, fun h => ?_⟩
  · cases ((intact_exportEntry_iff rfl).mp h).2.1
  · cases ((intact_exportEntry_iff rfl).mp h).2.2.1
  · cases ((intact_exportEntry_iff rfl).mp h).2.2.2
  · cases ((intact_exportEntry_iff rfl).mp h).2.2.1

end Goblin.ObjectStore
