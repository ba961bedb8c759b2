import Goblin.Lib.Replay
import Goblin.Store.RocksDB

/-! `Admin::migrationDB`, which copies a database of the old format into a new one. -/
namespace Goblin.Admin

open Model Store List

/-- A value with its `proto::old::Meta`, whose times are in seconds. -/
structure OldRecord where
  withTTL : Bool
  version : ℕ
  ttl : ℕ
  deadline : ℕ
  value : ValueType

/-- A header of two bytes with a meta and a value, or the digits of the milestone. -/
inductive RawValueType
  | record (r : OldRecord)
  | milestone (n : ℕ)

namespace RawValueType

/-- There are no more than the two bytes of a header; a zero in the meta takes no byte. -/
def bare : RawValueType → Bool
  | record r => r.version = 0 ∧ r.ttl = 0 ∧ r.deadline = 0 ∧ r.value = ""
  | milestone n => (Nat.toDigits 10 n).length ≤ 2

/-- The first byte, `NORMAL` (100) or `NORMAL_WITH_TTL` (101) in a header. -/
def mType : RawValueType → Char
  | record r => if r.withTTL then 'e' else 'd'
  | milestone n => (Nat.toDigits 10 n).headD '0'

/-- The meta and the value; of the digits none is ever asked for. -/
def payload : RawValueType → OldRecord
  | record r => r
  | milestone _ => ⟨false, 0, 0, 0, ""⟩

def parseMeta (raw : RawValueType) : Except Status OldRecord :=
  if raw.bare then .error (.error "corrupted header size")
  else if raw.mType ≠ 'd' ∧ raw.mType ≠ 'e' then .error (.error "invalid type in header")
  else .ok raw.payload

end RawValueType

/-- The tuple that the iterator fills, which starts out with zeros. -/
structure Entry where
  value : ValueType := ""
  ttl : ℕ := INFINITE_TTL
  version : ℕ := 0

def fromRawValue (now : ℕ) (raw : RawValueType) (out : Entry) : Status × Entry :=
  match raw.parseMeta with
  | .error s => (s, out)
  | .ok r =>
    if isTimeOut now r.deadline r.ttl then (⟨.expired, "ttl expired"⟩, out)
    else (.ok, ⟨r.value, r.ttl, r.version⟩)

abbrev Iterator := List (Sigma fun _ : KeyType => RawValueType)

/-- `RocksDBKVStoreIterator::get`, which drops the status of `fromRawValue`. -/
def Iterator.get (now : KeyType → ℕ) (it : Iterator) (out : Entry) : Status × KeyType × Entry :=
  match it with
  | [] => (.error "", "", out)
  | ⟨key, raw⟩ :: _ => (.ok, key, (fromRawValue (now key) raw out).2)

/-- `curTime` is in nanoseconds, and a deadline has 32 bits. -/
def writeEntry (curTime : ℕ) (newDB : RocksDBKVStore) (key : KeyType) (out : Entry) : RocksDBKVStore :=
  if out.ttl = INFINITE_TTL then newDB.writeKV key out.value out.version NOT_UPDATED DEFAULT_UDFMETA
  else newDB.writeTTLKV key out.value out.version out.ttl ((curTime + out.ttl) % 2 ^ 32) NOT_UPDATED DEFAULT_UDFMETA

/-- The loop over a working set, for so many turns; a failed `get` does not move the iterator. -/
def migrateWS (curTime : ℕ) (now : KeyType → ℕ) : ℕ → Iterator → RocksDBKVStore → Option RocksDBKVStore
  | 0, _, _ => none
  | _ + 1, [], newDB => some newDB
  | fuel + 1, e :: rest, newDB =>
    match Iterator.get now (e :: rest) {} with
    | (s, key, out) =>
      if ¬ s.isOK then migrateWS curTime now fuel (e :: rest) newDB
      else migrateWS curTime now fuel rest (writeEntry curTime newDB key out)

section Loop

variable {curTime : ℕ} {now : KeyType → ℕ}

/-- The new record for an entry. -/
def Entry.stored (curTime : ℕ) (out : Entry) : Record where
  value := out.value
  version := out.version
  ttl := out.ttl
  deadline := if out.ttl = INFINITE_TTL then NEVER_EXPIRE else (curTime + out.ttl) % 2 ^ 32

/-- What the loop writes for a record. -/
def written (curTime : ℕ) (now : KeyType → ℕ) (e : Sigma fun _ : KeyType => RawValueType) : KeyType × Option Record :=
  (e.1, some ((fromRawValue (now e.1) e.2 {}).2.stored curTime))

theorem migrateWS_eq {fuel : ℕ} {it : Iterator} (h : it.length < fuel) (newDB : RocksDBKVStore) :
    migrateWS curTime now fuel it newDB =
      some { newDB with mWriteBatch := newDB.mWriteBatch ++ it.map (written curTime now) } := by
  induction fuel generalizing it newDB with
  | zero => omega
  | succ fuel ih =>
    cases it with
    | nil => simp [migrateWS]
    | cons e rest =>
      have hrest : rest.length < fuel := by simpa using h
      have hwrite : writeEntry curTime newDB e.1 (fromRawValue (now e.1) e.2 {}).2 =
          { newDB with mWriteBatch := newDB.mWriteBatch ++ [written curTime now e] } := by
        unfold writeEntry written Entry.stored
        split_ifs with httl
        · simp only [RocksDBKVStore.writeKV, RocksDBKVStore.writeTTLKV, httl]
        · rfl
      simp only [migrateWS, Iterator.get, Status.isOK_ok, not_true, if_false]
      rw [hwrite, ih hrest]
      simp

/-- The milestone is written as a record without a value: it starts with a digit and not with a type. -/
theorem written_milestone (key : KeyType) (n : ℕ) :
    written curTime now ⟨key, .milestone n⟩ = (key, some (Entry.stored curTime {})) := by
  have hdigit : ((Nat.toDigits 10 n).headD '0').isDigit = true := by
    cases hdigits : Nat.toDigits 10 n with
    | nil => rfl
    | cons c cs => exact Nat.isDigit_of_mem_toDigits (by omega) le_rfl (hdigits ▸ mem_cons_self)
  have htype (c : Char) (hc : c.isDigit = false) : (RawValueType.milestone n).mType ≠ c := by
    rintro rfl
    cases hc.symm.trans hdigit
  have hparse : ∃ s, (RawValueType.milestone n).parseMeta = .error s := by
    unfold RawValueType.parseMeta
    rw [if_pos (And.intro (htype 'd' rfl) (htype 'e' rfl))]
    split_ifs <;> exact ⟨_, rfl⟩
  obtain ⟨s, hs⟩ := hparse
  simp only [written, fromRawValue, hs]

/-- So is an expired record. -/
theorem written_record (key : KeyType) (r : OldRecord) : written curTime now ⟨key, .record r⟩ = (key, some (
    Entry.stored curTime (if isTimeOut (now key) r.deadline r.ttl then {} else ⟨r.value, r.ttl, r.version⟩))) := by
  have htype : ¬ ((RawValueType.record r).mType ≠ 'd' ∧ (RawValueType.record r).mType ≠ 'e') := by
    cases hw : r.withTTL <;> simp [RawValueType.mType, hw]
  unfold written fromRawValue RawValueType.parseMeta
  rw [if_neg htype]
  by_cases hbare : (RawValueType.record r).bare = true
  · -- the zeros of the entry are what was stored
    obtain ⟨hversion, httl, hdeadline, hvalue⟩ := of_decide_eq_true hbare
    simp [hbare, hversion, httl, hdeadline, hvalue, isTimeOut, INFINITE_TTL]
  · rw [if_neg hbare]
    dsimp only [RawValueType.payload]
    split_ifs <;> rfl

end Loop

def allWS : List String := (List.range (1 <<< 4)).map fun i => "cf_for_app" ++ toString i

def kCFMetaDefault : String := "default"
def kPersistedMilestone : KeyType := "persistedMilestone"

/-- The position among the handles, of which the default column family has the first: not the one behind, as in the new
store. -/
def findCFHandle (wsName : String) : ℕ := if wsName = kCFMetaDefault then 0 else allWS.idxOf wsName

/-- The column families by the positions of their handles. -/
structure OldRocksDBKVStore where
  mDefaultWSLookupFunc : KeyType → String
  mRocksDB : ℕ → AList fun _ : KeyType => RawValueType
  persisted : ℕ
  lookup_mem : ∀ key, mDefaultWSLookupFunc key ∈ allWS
  stored : ⟨kPersistedMilestone, .milestone persisted⟩ ∈ (mRocksDB 0).entries
  placed : ∀ i key raw, ⟨key, raw⟩ ∈ (mRocksDB i).entries →
    (i = 0 ∧ key = kPersistedMilestone ∧ raw = .milestone persisted) ∨
    ((if key = kCFMetaDefault then 0 else findCFHandle (mDefaultWSLookupFunc key)) = i ∧ ∃ r, raw = .record r)

namespace OldRocksDBKVStore

variable (old : OldRocksDBKVStore) (curTime : ℕ) (now : ℕ → KeyType → ℕ)

def loadMilestone : Option ℕ :=
  match (old.mRocksDB 0).lookup kPersistedMilestone with
  | some (.milestone n) => some n
  | _ => none

def scanWS (fuel : ℕ) (newDB : RocksDBKVStore) (ws : String) : Option RocksDBKVStore :=
  migrateWS curTime (now (findCFHandle ws)) fuel (old.mRocksDB (findCFHandle ws)).entries newDB

/-- `none` where the process does not end or fails an assertion; `now` is the clock at each record. -/
def migrationDB (fuel : ℕ) : Option RocksDBKVStore := do
  let newDB ← allWS.foldlM (old.scanWS curTime now fuel) {}
  let milestone ← old.loadMilestone
  return newDB.commit milestone

/-- A user's record. -/
def Has (i : ℕ) (key : KeyType) (r : OldRecord) : Prop := ⟨key, .record r⟩ ∈ (old.mRocksDB i).entries

/-- The copy of a live record. -/
def copyOf (r : OldRecord) : Record where
  value := r.value
  version := r.version
  ttl := r.ttl
  deadline := if r.ttl = INFINITE_TTL then NEVER_EXPIRE else curTime / 10 ^ 9 + r.ttl

structure Upgraded (newDB : RocksDBKVStore) : Prop where
  records : ∀ key c, newDB.mRocksDB key = some c ↔
    ∃ i r, old.Has i key r ∧ isTimeOut (now i key) r.deadline r.ttl = false ∧ c = copyOf curTime r
  milestone : newDB.mMilestone = old.persisted

/-- No record has expired, the clock in nanoseconds gives every deadline in seconds, and the key of the milestone is
also a user's key. -/
structure Upgradable : Prop where
  live : ∀ i key r, old.Has i key r → isTimeOut (now i key) r.deadline r.ttl = false
  deadline : ∀ i key r, old.Has i key r → r.ttl ≠ INFINITE_TTL →
    (curTime + r.ttl) % 2 ^ 32 = curTime / 10 ^ 9 + r.ttl
  shadowed : ∃ i r, old.Has i kPersistedMilestone r

section Upgrade

variable {old curTime now} {i j : ℕ} {key : KeyType} {r r' : OldRecord} {l : List ℕ} {c : Option Record}

theorem map_findCFHandle : allWS.map findCFHandle = List.range 16 := by decide +kernel

/-- What is written for the column families in `l`. -/
def batch (old : OldRocksDBKVStore) (curTime : ℕ) (now : ℕ → KeyType → ℕ) (l : List ℕ) :
    List (KeyType × Option Record) :=
  l.flatMap fun i => (old.mRocksDB i).entries.map (written curTime (now i))

theorem mem_batch : (key, c) ∈ batch old curTime now l ↔
    ∃ i ∈ l, ∃ raw, ⟨key, raw⟩ ∈ (old.mRocksDB i).entries ∧ (key, c) = written curTime (now i) ⟨key, raw⟩ := by
  simp only [batch, mem_flatMap, mem_map]
  constructor
  · rintro ⟨i, hi, ⟨k, raw⟩, hraw, hwritten⟩
    obtain rfl : k = key := congrArg Prod.fst hwritten
    exact ⟨i, hi, raw, hraw, hwritten.symm⟩
  · rintro ⟨i, hi, raw, hraw, hwritten⟩
    exact ⟨i, hi, _, hraw, hwritten.symm⟩

theorem foldlM_scanWS {fuel : ℕ} (newDB : RocksDBKVStore) {names : List String}
    (h : ∀ i ∈ names.map findCFHandle, (old.mRocksDB i).entries.length < fuel) :
    names.foldlM (old.scanWS curTime now fuel) newDB = some { newDB with
      mWriteBatch := newDB.mWriteBatch ++ batch old curTime now (names.map findCFHandle) } := by
  induction names generalizing newDB with
  | nil => simp [batch]
  | cons ws names ih =>
    rw [foldlM_cons, scanWS, migrateWS_eq (h _ mem_cons_self)]
    refine (ih _ fun i hi => h i (mem_cons_of_mem _ hi)).trans ?_
    simp [batch]

/-- The column family of a user's record is that of its key. -/
theorem Has.placed (h : old.Has i key r) :
    (if key = kCFMetaDefault then 0 else findCFHandle (old.mDefaultWSLookupFunc key)) = i := by
  obtain ⟨-, -, hraw⟩ | ⟨hi, -⟩ := old.placed i key _ h
  · cases hraw
  · exact hi

theorem Has.lt (h : old.Has i key r) : i < 16 := by
  have hmem := mem_map_of_mem (f := findCFHandle) (old.lookup_mem key)
  rw [map_findCFHandle, mem_range] at hmem
  rw [← h.placed]
  split_ifs <;> omega

theorem Has.unique (h : old.Has i key r) (h' : old.Has j key r') : i = j ∧ r = r' := by
  obtain rfl : i = j := h.placed.symm.trans h'.placed
  cases (old.mRocksDB i).nodupKeys.eq_of_mk_mem h h'
  exact ⟨rfl, rfl⟩

/-- The last write of a key decides. -/
theorem applyBatch_cases (m : RecordMap) (b : List (KeyType × Option Record)) (key : KeyType) :
    (applyBatch m b key = m key ∧ ∀ c, (key, c) ∉ b) ∨ (key, applyBatch m b key) ∈ b := by
  have hreplay : applyBatch m b = Lib.replayOn some m b := by
    induction b generalizing m with
    | nil => rfl
    | cons w b ih => exact ih _
  have hmem {c : Option Record} : c ∈ Lib.sets some key b ↔ (key, c) ∈ b := (Lib.mem_sets some).trans (by simp)
  rw [hreplay, Lib.replayOn_eq_getLastD]
  rcases eq_nil_or_concat (Lib.sets some key b) with hs | ⟨cs, c, hs⟩
  · exact .inl ⟨by simp [hs], fun c hc => by simpa [hs] using hmem.mpr hc⟩
  · exact .inr (hmem.mp (by simp [hs]))

theorem applyBatch_eq {m : RecordMap} {b : List (KeyType × Option Record)} (hmem : (key, c) ∈ b)
    (honly : ∀ c', (key, c') ∈ b → c' = c) : applyBatch m b key = c := by
  obtain ⟨-, hnot⟩ | hlast := applyBatch_cases m b key
  · exact absurd hmem (hnot c)
  · exact honly _ hlast

/-- The records of the new database. -/
def migrated (old : OldRocksDBKVStore) (curTime : ℕ) (now : ℕ → KeyType → ℕ) : RecordMap :=
  applyBatch (fun _ => none) (batch old curTime now (List.range 16))

/-- What is written for a user's record stays: of the column families only the first has the milestone, too. -/
theorem Has.migrated (h : old.Has i key r) : migrated old curTime now key = some (Entry.stored curTime
    (if isTimeOut (now i key) r.deadline r.ttl then {} else ⟨r.value, r.ttl, r.version⟩)) := by
  have hmem {l : List ℕ} (hi : i ∈ l) : (key, _) ∈ batch old curTime now l :=
    mem_batch.mpr ⟨i, hi, _, h, (written_record key r).symm⟩
  have honly {l : List ℕ} (hl : i = 0 ∨ 0 ∉ l) {c : Option Record} (hc : (key, c) ∈ batch old curTime now l) :
      (key, c) = written curTime (now i) ⟨key, .record r⟩ := by
    obtain ⟨j, hj, raw, hraw, hc⟩ := mem_batch.mp hc
    obtain rfl : i = j := by
      obtain ⟨rfl, -, -⟩ | ⟨hplace, -⟩ := old.placed j key raw hraw
      · exact hl.resolve_right fun hnot => hnot hj
      · exact h.placed.symm.trans hplace
    cases (old.mRocksDB i).nodupKeys.eq_of_mk_mem h hraw
    exact hc
  simp only [written_record, Prod.mk.injEq, true_and] at honly
  have hlt := h.lt
  unfold OldRocksDBKVStore.migrated
  by_cases hi : i = 0
  · exact applyBatch_eq (hmem (mem_range.mpr hlt)) fun c => honly (.inl hi)
  · have hsplit : batch old curTime now (List.range 16) =
        batch old curTime now [0] ++ batch old curTime now (List.range' 1 15) := by
      rw [batch, batch, batch, ← flatMap_append]
      rfl
    rw [hsplit, applyBatch_append]
    exact applyBatch_eq (hmem (mem_range'_1.mpr (by omega))) fun c => honly (.inr (by simp))

/-- Any other key is that of the milestone. -/
theorem migrated_of_not_has (h : ¬ ∃ i r, old.Has i key r) : migrated old curTime now key =
    if key = kPersistedMilestone then some (Entry.stored curTime {}) else none := by
  have honly {c : Option Record} (hc : (key, c) ∈ batch old curTime now (List.range 16)) :
      key = kPersistedMilestone ∧ c = some (Entry.stored curTime {}) := by
    obtain ⟨i, -, raw, hraw, hc⟩ := mem_batch.mp hc
    obtain ⟨-, hkey, rfl⟩ | ⟨-, r, rfl⟩ := old.placed i key raw hraw
    · rw [written_milestone] at hc
      exact ⟨hkey, congrArg Prod.snd hc⟩
    · exact absurd ⟨i, r, hraw⟩ h
  unfold OldRocksDBKVStore.migrated
  split_ifs with hkey
  · subst hkey
    refine applyBatch_eq (mem_batch.mpr ⟨0, by simp, _, old.stored, (written_milestone _ _).symm⟩) fun c hc => ?_
    exact (honly hc).2
  · obtain ⟨heq, -⟩ | hlast := applyBatch_cases (fun _ => none) (batch old curTime now (List.range 16)) key
    · exact heq
    · exact absurd (honly hlast).1 hkey

/-- The upgrade ends, and is right for just these databases. -/
theorem upgrade_keeps_live_data_iff (old : OldRocksDBKVStore) (curTime : ℕ) (now : ℕ → KeyType → ℕ) :
    ∃ newDB, (∃ least, ∀ fuel ≥ least, old.migrationDB curTime now fuel = some newDB) ∧
      (old.Upgraded curTime now newDB ↔ old.Upgradable curTime now) := by
  refine ⟨{ mRocksDB := migrated old curTime now, mMilestone := old.persisted },
    ⟨((List.range 16).map fun i => (old.mRocksDB i).entries).flatten.length + 1, fun fuel hfuel => ?_⟩,
    fun h => ?_, fun h => ?_⟩
  · have hlength : ∀ i ∈ allWS.map findCFHandle, (old.mRocksDB i).entries.length < fuel := by
      intro i hi
      rw [map_findCFHandle] at hi
      have hle := (sublist_flatten_of_mem (mem_map_of_mem (f := fun i => (old.mRocksDB i).entries) hi)).length_le
      omega
    rw [migrationDB, foldlM_scanWS {} hlength, map_findCFHandle, loadMilestone, AList.mem_lookup_iff.mpr old.stored]
    rfl
  · have hcopy {i : ℕ} {key : KeyType} {r : OldRecord} (hhas : old.Has i key r) :
        isTimeOut (now i key) r.deadline r.ttl = false ∧
          Entry.stored curTime ⟨r.value, r.ttl, r.version⟩ = copyOf curTime r := by
      obtain ⟨j, r', hhas', hlive, hr⟩ := (h.records key _).mp hhas.migrated
      obtain ⟨rfl, rfl⟩ := hhas.unique hhas'
      rw [hlive] at hr
      exact ⟨hlive, hr⟩
    refine ⟨fun i key r hhas => (hcopy hhas).1, fun i key r hhas httl => ?_, ?_⟩
    · have hdeadline := congrArg Record.deadline (hcopy hhas).2
      simpa only [Entry.stored, copyOf, if_neg httl] using hdeadline
    · by_contra hnot
      obtain ⟨i, r, hhas, -⟩ := (h.records _ _).mp ((migrated_of_not_has hnot).trans (if_pos rfl))
      exact hnot ⟨i, r, hhas⟩
  · have hcopy {i : ℕ} {key : KeyType} {r : OldRecord} (hhas : old.Has i key r) :
        migrated old curTime now key = some (copyOf curTime r) := by
      have hstored : Entry.stored curTime ⟨r.value, r.ttl, r.version⟩ = copyOf curTime r := by
        rw [Entry.stored, copyOf]
        split_ifs with httl
        · rfl
        · rw [h.deadline i key r hhas httl]
      rw [hhas.migrated, h.live i key r hhas, ← hstored]
      rfl
    refine ⟨fun key c => ⟨fun hc => ?_, ?_⟩, rfl⟩
    · by_cases hhas : ∃ i r, old.Has i key r
      · obtain ⟨i, r, hhas⟩ := hhas
        exact ⟨i, r, hhas, h.live i key r hhas, Option.some.inj (hc.symm.trans (hcopy hhas))⟩
      · have hkey : key ≠ kPersistedMilestone := fun heq => hhas (heq ▸ h.shadowed)
        cases hc.symm.trans ((migrated_of_not_has hhas).trans (if_neg hkey))
    · rintro ⟨i, r, hhas, -, rfl⟩
      exact hcopy hhas

end Upgrade

/-- A database with nothing but its milestone. -/
def fresh : OldRocksDBKVStore where
  mDefaultWSLookupFunc _ := "cf_for_app0"
  mRocksDB i := if i = 0 then AList.singleton kPersistedMilestone (.milestone 7) else ∅
  persisted := 7
  lookup_mem _ := by decide
  stored := mem_singleton_self _
  placed i key raw h := by
    split_ifs at h with hi
    · cases mem_singleton.mp h
      exact .inl ⟨hi, rfl, rfl⟩
    · cases h

/-- It gets a record under the key of the milestone. -/
theorem fresh_gets_record : ((fresh.migrationDB 0 (fun _ _ => 0) 2).bind fun newDB =>
    newDB.mRocksDB kPersistedMilestone) =
    some { value := "", version := 0 } := by
  decide +kernel

end OldRocksDBKVStore

end Goblin.Admin
