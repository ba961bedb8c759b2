import Goblin.ObjectStore.Watch

/-! The first response of a watch: RocksDB as it was flushed when a key is read, and the changes that come
after it. -/
namespace Goblin.ObjectStore

open Model Store Lib List Option Function

namespace WatchNode

/-- Nothing in the write batch touches a key of a watch that starts with its value, changes of such a key
are newer than the version given for it, and RocksDB can be read: where it has no value, the uninitialised
variable holds 0. -/
def AdmitsRetrieve (s : WatchNode) : WatchAct → Prop
  | .create _ entries true => ∀ e ∈ entries, ∀ op ∈ s.db.mWriteBatch, op.1 ≠ e.1
  | .apply e => ∀ w ∈ changeOf e, ∀ wrap ∈ s.center.mKey2WatchEntryMap w.mKey, ∀ c ∈ s.calls wrap.mWatchId,
    w.mKey ∈ c.toRead ∨ (c.since w.mKey).isSome → c.needNotify w = true
  | .read watchId version => ∀ c ∈ s.calls watchId, ∀ key ∈ c.toRead.head?,
    (s.db.readKV s.now key {}).1.isOK = true ∨ (s.db.readKV s.now key {}).1.isNotFound = true ∧ version = 0
  | _ => True

instance (s : WatchNode) : ∀ a, Decidable (s.AdmitsRetrieve a)
  | .create _ entries true => inferInstanceAs (Decidable (∀ e ∈ entries, ∀ op ∈ s.db.mWriteBatch, _))
  | .create _ _ false => isTrue trivial
  | .apply e => inferInstanceAs (Decidable (∀ w ∈ changeOf e,
      ∀ wrap ∈ s.center.mKey2WatchEntryMap w.mKey, ∀ c ∈ s.calls wrap.mWatchId, _ → _))
  | .read watchId _ => inferInstanceAs (Decidable (∀ c ∈ s.calls watchId, ∀ key ∈ c.toRead.head?, _ ∨ _))
  | .flush _ | .tick _ | .purge _ | .purgeKey _ | .respond _ | .cancel _ => isTrue trivial

/-- What RocksDB has for a key, as the first response reports it. -/
def stored (s : WatchNode) (key : KeyType) : Change :=
  match s.db.mRocksDB key with
  | none => ⟨key, "", 0, .INIT_NOTEXIST⟩
  | some r =>
    if isTimeOut s.now r.deadline r.ttl then ⟨key, "", 0, .INIT_NOTEXIST⟩
    else ⟨key, r.value, r.version, .INIT_EXIST⟩

/-- What a call has read and is to read. -/
structure Reading (s : WatchNode) (id : WatchIdType) (c : WatchCall) : Prop where
  registered : c.toRead ≠ [] → (s.center.mWatchId2KeyMap id).isSome
  toRead : ∀ key ∈ c.toRead, key ∈ c.keys ∧
    s.batched.filter (·.mKey = key) <:+ c.history.filter (·.mKey = key) ∧
    ∀ e ∈ s.batched, e.mKey = key → c.needNotify e = true
  since : ∀ key l, c.since key = some l → key ∈ c.keys ∧ l <:+ c.history.filter (·.mKey = key) ∧
    ∀ e ∈ l, c.needNotify e = true

structure InvRetrieve (s : WatchNode) : Prop where
  inv : s.Inv
  batched : s.batched.map WatchEntry.mKey = s.db.mWriteBatch.map Prod.fst
  reading : ∀ id c, s.calls id = some c → s.Reading id c

variable {s t : WatchNode} {id : WatchIdType} {c : WatchCall}

theorem InvRetrieve.initial {db : RocksDBKVStore} (hdb : db.mWriteBatch = []) (now : ℕ) :
    InvRetrieve { db, now } where
  inv := .initial db now
  batched := by simp [hdb]
  reading := nofun

theorem mWriteBatch_apply (e : Event) (db : RocksDBKVStore) : ((e.apply db).mWriteBatch).map Prod.fst =
    db.mWriteBatch.map Prod.fst ++ ((changeOf e).map WatchEntry.mKey).toList := by
  have hwrite (e : WriteEvent) : ((e.apply db).mWriteBatch).map Prod.fst =
      db.mWriteBatch.map Prod.fst ++ ((writeChange e).map WatchEntry.mKey).toList := by
    unfold WriteEvent.apply writeChange
    split_ifs <;> simp [KVStore.writeTTLKV, KVStore.writeKV, RocksDBKVStore.writeKV, RocksDBKVStore.writeTTLKV]
  cases e with
  | read e => simp [Event.apply, changeOf]
  | write e => exact hwrite e
  | delete e => simp [Event.apply, changeOf, KVStore.deleteKV, RocksDBKVStore.deleteKV]
  | importKV e => exact hwrite e.mWriteEvent

theorem Reading.congr {c' : WatchCall} (h : s.Reading id c)
    (hids : (t.center.mWatchId2KeyMap id).isSome = (s.center.mWatchId2KeyMap id).isSome)
    (hbatched : t.batched = s.batched) (hentries : c'.entries = c.entries) (htoRead : c'.toRead = c.toRead)
    (hhistory : c'.history = c.history) (hsince : c'.since = c.since) : t.Reading id c' := by
  obtain ⟨entries, toRead, initial, code, collecting, delivered, history, since⟩ := c'
  obtain rfl : entries = c.entries := hentries
  obtain rfl : toRead = c.toRead := htoRead
  obtain rfl : history = c.history := hhistory
  obtain rfl : since = c.since := hsince
  refine ⟨fun hne => hids ▸ h.registered hne, ?_, h.since⟩
  rw [hbatched]
  exact h.toRead

theorem InvRetrieve.call {c' : WatchCall} (h : s.InvRetrieve) (hinv : t.Inv) (hbatched : t.batched = s.batched)
    (hdb : t.db = s.db) (hids : t.center.mWatchId2KeyMap = s.center.mWatchId2KeyMap)
    (hcalls : t.calls = update s.calls id (some c')) (hc' : t.Reading id c') : t.InvRetrieve := by
  refine ⟨hinv, by rw [hbatched, hdb, h.batched], fun id' d hd => ?_⟩
  rw [hcalls] at hd
  by_cases hid : id' = id
  · subst hid
    obtain rfl : c' = d := by simpa using hd
    exact hc'
  · exact (h.reading id' d (by simpa [hid] using hd)).congr (by rw [hids]) hbatched rfl rfl rfl rfl

theorem Reading.readKey {key : KeyType} {toRead : List KeyType} (h : s.Reading id c)
    (htoRead : c.toRead = key :: toRead) (version : ℕ) :
    s.Reading id (s.readKey { c with toRead } key version) := by
  obtain ⟨hentries, hrest, hhistory, -, -, hsince⟩ := readKey_fields (s := s) { c with toRead } key version
  obtain ⟨hkey, hsuffix, hnewer⟩ := h.toRead key (by simp [htoRead])
  have hnext : s.Reading id { c with
      toRead := toRead
      since := update c.since key (some (s.batched.filter (·.mKey = key))) } := by
    refine ⟨fun _ => h.registered (by simp [htoRead]), fun k hk => h.toRead k (by simp [htoRead, hk]),
      fun k l hl => ?_⟩
    by_cases hk : k = key
    · subst hk
      obtain rfl : s.batched.filter (·.mKey = k) = l := by simpa using hl
      refine ⟨hkey, hsuffix, fun e he => ?_⟩
      obtain ⟨hmem, hek⟩ := mem_filter.mp he
      exact hnewer e hmem (by simpa using hek)
    · exact h.since k l (by simpa [hk] using hl)
  exact hnext.congr rfl rfl hentries hrest hhistory hsince

theorem Reading.record {w : WatchEntry} (h : s.Reading id c) (hnewer : w.mKey ∈ c.toRead ∨
    (c.since w.mKey).isSome → c.needNotify w = true)
    (hids : (t.center.mWatchId2KeyMap id).isSome = (s.center.mWatchId2KeyMap id).isSome)
    (hbatched : t.batched = s.batched ++ [w]) : t.Reading id (c.record w) := by
  have hfilter (l : List WatchEntry) (key : KeyType) : (l ++ [w]).filter (·.mKey = key) =
      l.filter (·.mKey = key) ++ if w.mKey = key then [w] else [] := by
    by_cases hk : w.mKey = key <;> simp [hk]
  have hsnoc {l l' : List WatchEntry} {key : KeyType} (h : l <:+ l'.filter (·.mKey = key)) :
      (l ++ if w.mKey = key then [w] else []) <:+ (l' ++ [w]).filter (·.mKey = key) := by
    obtain ⟨rest, hrest⟩ := h
    exact ⟨rest, by rw [hfilter, ← hrest, append_assoc]⟩
  refine ⟨fun hne => hids ▸ h.registered hne, fun key hkey => ?_, fun key l hl => ?_⟩
  · obtain ⟨hmem, hsuffix, hold⟩ := h.toRead key hkey
    refine ⟨hmem, ?_, fun e he hek => ?_⟩
    · rw [hbatched, hfilter]
      exact hsnoc hsuffix
    · rw [hbatched] at he
      rcases mem_append.mp he with he | he
      · exact hold e he hek
      · obtain rfl := mem_singleton.mp he
        exact hnewer (.inl (hek ▸ hkey))
  · by_cases hk : key = w.mKey
    · subst hk
      obtain ⟨l₀, hl₀, rfl⟩ : ∃ l₀, c.since w.mKey = some l₀ ∧ l₀ ++ [w] = l := by
        simpa [WatchCall.record] using hl
      obtain ⟨hmem, hsuffix, hold⟩ := h.since _ l₀ hl₀
      refine ⟨hmem, by simpa [WatchCall.record] using hsnoc hsuffix, fun e he => ?_⟩
      rcases mem_append.mp he with he | he
      · exact hold e he
      · obtain rfl := mem_singleton.mp he
        exact hnewer (.inr (by simp [hl₀]))
    · obtain ⟨hmem, hsuffix, hold⟩ := h.since key l (by simpa [WatchCall.record, hk] using hl)
      exact ⟨hmem, by simpa [WatchCall.record, Ne.symm hk] using hsnoc hsuffix, hold⟩

theorem Reading.other {w : WatchEntry} (h : s.Reading id c)
    (hnot : ¬ ((s.center.mWatchId2KeyMap id).isSome ∧ w.mKey ∈ c.keys))
    (hids : (t.center.mWatchId2KeyMap id).isSome = (s.center.mWatchId2KeyMap id).isSome)
    (hbatched : t.batched = s.batched ++ [w]) : t.Reading id c := by
  refine ⟨fun hne => hids ▸ h.registered hne, fun key hkey => ?_, h.since⟩
  obtain ⟨hmem, hsuffix, hold⟩ := h.toRead key hkey
  have hw : w.mKey ≠ key := fun hw => hnot ⟨h.registered (ne_nil_of_mem hkey), hw ▸ hmem⟩
  refine ⟨hmem, by simpa [hbatched, hw] using hsuffix, fun e he hek => ?_⟩
  rw [hbatched] at he
  rcases mem_append.mp he with he | he
  · exact hold e he hek
  · exact absurd (mem_singleton.mp he ▸ hek) hw

theorem InvRetrieve.apply (h : s.InvRetrieve) {e : Event} (hadmits : s.Admits (.apply e))
    (hretrieve : s.AdmitsRetrieve (.apply e)) : (s.apply e).InvRetrieve := by
  have hids (id : WatchIdType) : ((s.apply e).center.mWatchId2KeyMap id).isSome =
      (s.center.mWatchId2KeyMap id).isSome := by
    rw [center_apply]
    cases notification e <;> rfl
  have hbatch := mWriteBatch_apply e s.db
  cases hw : changeOf e with
  | none =>
    have happly : (s.apply e).batched = s.batched ∧ (s.apply e).calls = s.calls ∧ (s.apply e).db = e.apply s.db := by
      simp [WatchNode.apply, hw]
    refine ⟨h.inv.apply hadmits, ?_, fun id c hc => ?_⟩
    · rw [happly.1, happly.2.2, hbatch, hw, h.batched]
      simp
    · rw [happly.2.1] at hc
      exact (h.reading id c hc).congr (hids id) happly.1 rfl rfl rfl rfl
  | some w =>
    have hbatched : (s.apply e).batched = s.batched ++ [w] := by simp [WatchNode.apply, hw, recordChange]
    refine ⟨h.inv.apply hadmits, ?_, fun id d hd => ?_⟩
    · have hdb : (s.apply e).db = e.apply s.db := by simp [WatchNode.apply, hw, recordChange]
      rw [hbatched, hdb, hbatch, hw, map_append, h.batched]
      rfl
    · have hcalls : (s.apply e).calls id = (s.calls id).map fun c =>
          if (s.center.mWatchId2KeyMap id).isSome ∧ w.mKey ∈ c.keys then c.record w else c := by
        simp [WatchNode.apply, hw, recordChange]
      obtain ⟨c, hc, rfl⟩ := map_eq_some_iff.mp (hcalls.symm.trans hd)
      split_ifs with hwatches
      · refine (h.reading id c hc).record ?_ (hids id) hbatched
        obtain ⟨keys, hkeys⟩ := isSome_iff_exists.mp hwatches.1
        obtain rfl := h.inv.keys_of_ids hc hkeys
        obtain ⟨wrap, hwrap, hwrapId⟩ := h.inv.sound.exists_wrap hkeys hwatches.2
        exact hretrieve w hw wrap hwrap c (hwrapId ▸ hc)
      · exact (h.reading id c hc).other hwatches (hids id) hbatched

theorem InvRetrieve.create (h : s.InvRetrieve) {entries : List (KeyType × ℕ)} {retrieveOnConnected : Bool}
    (hinv : t.Inv) (hretrieve : s.AdmitsRetrieve (.create id entries retrieveOnConnected))
    (hs : s.step (.create id entries retrieveOnConnected) = some t) : t.InvRetrieve := by
  rw [step] at hs
  split at hs
  · cases hs
  cases hs
  refine ⟨hinv, h.batched, fun id' d hd => ?_⟩
  by_cases hid : id' = id
  · subst hid
    obtain rfl := Option.some.inj ((update_self id' _ s.calls).symm.trans hd)
    refine ⟨fun _ => by simp, fun key hkey => ?_, fun key l hl => by cases hl⟩
    cases retrieveOnConnected with
    | false => cases hkey
    | true =>
      have hkey : key ∈ entries.map Prod.fst := hkey
      have hnot : ∀ e ∈ s.batched, e.mKey ≠ key := by
        rintro e he rfl
        obtain ⟨op, hop, hope⟩ := mem_map.mp (h.batched ▸ mem_map_of_mem he)
        obtain ⟨entry, hentry, hkey⟩ := mem_map.mp hkey
        exact hretrieve entry hentry op hop (hope.trans hkey.symm)
      have hnone : s.batched.filter (·.mKey = key) = [] :=
        filter_eq_nil_iff.mpr fun e he => by simpa using hnot e he
      exact ⟨hkey, hnone ▸ nil_suffix, fun e he hek => absurd hek (hnot e he)⟩
  · refine (h.reading id' d (by simpa [setCall, hid] using hd)).congr ?_ rfl rfl rfl rfl rfl
    simp [hid]

theorem InvRetrieve.cancel (h : s.InvRetrieve) (hinv : t.Inv) (hs : s.step (.cancel id) = some t) :
    t.InvRetrieve := by
  rw [step] at hs
  split_ifs at hs with hcond
  obtain ⟨center, hcenter, rfl⟩ := map_eq_some_iff.mp hs
  have hids := WatchCenter.mWatchId2KeyMap_unRegisterWatch hcenter
  refine ⟨hinv, h.batched, fun id' d hd => ?_⟩
  have hold := h.reading id' d hd
  refine ⟨fun hne => ?_, hold.toRead, hold.since⟩
  by_cases hid : id' = id
  · subst hid
    have hd : s.calls id' = some d := hd
    simp [hd, hne] at hcond
  · rw [hids, update_of_ne hid]
    exact hold.registered hne

theorem InvRetrieve.step (h : s.InvRetrieve) {a : WatchAct} (hadmits : s.Admits a)
    (hretrieve : s.AdmitsRetrieve a) (hs : s.step a = some t) : t.InvRetrieve := by
  have hinv := h.inv.step hadmits hs
  cases a with
  | apply e =>
    cases hs
    exact h.apply hadmits hretrieve
  | flush milestone =>
    cases hs
    refine ⟨hinv, rfl, fun id c hc => ?_⟩
    have hold := h.reading id c hc
    exact ⟨hold.registered, fun key hkey => ⟨(hold.toRead key hkey).1, nil_suffix, nofun⟩, hold.since⟩
  | tick now =>
    cases hs
    exact ⟨hinv, h.batched, fun id c hc => (h.reading id c hc).congr rfl rfl rfl rfl rfl rfl⟩
  | create id entries retrieveOnConnected => exact h.create hinv hretrieve hs
  | cancel id => exact h.cancel hinv hs
  | read id version =>
    obtain ⟨c, hc, hs⟩ := bind_eq_some_iff.mp hs
    unfold onRead at hs
    split at hs
    · rename_i key toRead htoRead
      cases hs
      exact h.call hinv rfl rfl rfl rfl (((h.reading id c hc).readKey htoRead version).congr rfl rfl rfl rfl rfl rfl)
    · cases hs
  | purge id =>
    obtain ⟨c, hc, hs⟩ := bind_eq_some_iff.mp hs
    unfold onPurge at hs
    split at hs
    · cases hs
      exact h.call hinv rfl rfl rfl rfl ((h.reading id c hc).congr rfl rfl rfl rfl rfl rfl)
    · cases hs
  | purgeKey id =>
    obtain ⟨c, hc, hs⟩ := bind_eq_some_iff.mp hs
    unfold onPurgeKey at hs
    split at hs
    · cases hs
      exact h.call hinv rfl rfl rfl rfl ((h.reading id c hc).congr rfl rfl rfl rfl rfl rfl)
    · cases hs
  | respond id =>
    obtain ⟨c, hc, hs⟩ := bind_eq_some_iff.mp hs
    unfold onRespond at hs
    split at hs
    · cases hs
      exact h.call hinv rfl rfl rfl rfl ((h.reading id c hc).congr rfl rfl rfl rfl rfl rfl)
    · cases hs

theorem initial_readKey (c : WatchCall) {key : KeyType} {version : ℕ}
    (h : (s.db.readKV s.now key {}).1.isOK = true ∨
      (s.db.readKV s.now key {}).1.isNotFound = true ∧ version = 0) :
    (s.readKey c key version).initial = c.initial ++ [s.stored key] := by
  unfold readKey stored
  unfold RocksDBKVStore.readKV at h ⊢
  cases hg : s.db.mGetError key with
  | some msg => simp [hg] at h
  | none =>
    cases hr : s.db.mRocksDB key with
    | none =>
      obtain rfl : version = 0 := by simpa [hg, hr] using h
      simp
    | some r =>
      by_cases ht : isTimeOut s.now r.deadline r.ttl
      · obtain rfl : version = 0 := by simpa [hg, hr, ht] using h
        simp [ht]
      · simp [ht]

/-- What came after the state that was read is a final part of what is delivered and on its way. -/
theorem InvRetrieve.covers (h : s.InvRetrieve) (hc : s.calls id = some c) {key : KeyType} {l : List WatchEntry}
    (hl : c.since key = some l) :
    l.map WatchEntry.change <:+ c.delivered.filter (·.key = key) ++ s.onWay id c key := by
  obtain ⟨hkey, hsuffix, hnewer⟩ := (h.reading id c hc).since key l hl
  have hall : l.filter c.needNotify = l := filter_eq_self.mpr hnewer
  have hchanges : l.map WatchEntry.change <:+ c.changes key c.history := by
    simpa [WatchCall.changes, hall] using (hsuffix.filter c.needNotify).map WatchEntry.change
  rwa [h.inv.balance id c hc key hkey]

/-- In a run that meets the condition, a watch that starts with the values of its keys misses nothing: each
value is the stored one, with its version, and what was applied to the key after that state, in the batch or
later, is delivered or on its way, in order and with nothing behind it. -/
theorem retrieve_has_no_gap {db : RocksDBKVStore} {now : ℕ} {as : List WatchAct} (hdb : db.mWriteBatch = [])
    (hG : Meets WatchNode.step (fun s a => s.Admits a ∧ s.AdmitsRetrieve a) { db, now } as)
    (hs : exec WatchNode.step { db, now } as = some s) :
    (∀ id c key l, s.calls id = some c → c.since key = some l →
      l.map WatchEntry.change <:+ c.delivered.filter (·.key = key) ++ s.onWay id c key) ∧
    ∀ id c key toRead version, s.calls id = some c → c.toRead = key :: toRead →
      s.AdmitsRetrieve (.read id version) → ∃ t c', s.step (.read id version) = some t ∧
        t.calls id = some c' ∧ c'.initial = c.initial ++ [s.stored key] ∧
        c'.since key = some (s.batched.filter (·.mKey = key)) := by
  have hinv : s.InvRetrieve := exec_invariant (fun _ _ _ h hadmits hstep => h.step hadmits.1 hadmits.2 hstep)
    (.initial hdb now) hG hs
  refine ⟨fun id c key l hc hl => hinv.covers hc hl, fun id c key toRead version hc htoRead hread => ?_⟩
  refine ⟨s.setCall id (s.readKey { c with toRead } key version), s.readKey { c with toRead } key version, ?_,
    update_self _ _ _, initial_readKey _ (hread c hc key (by simp [htoRead])), ?_⟩
  · simp [WatchNode.step, hc, onRead, htoRead]
  · rw [(readKey_fields _ key version).2.2.2.2.2, update_self]

/-- A value is flushed, the watch is created and reads it, and the next write reaches the watch. -/
def retrieved : List WatchAct :=
  [.apply (.write { mKey := "k", mValue := "v", mVersion := 1 }), .flush 1, .create "w" [("k", 0)] true,
    .apply (.write { mKey := "k", mValue := "v2", mVersion := 2 }), .read "w" 7, .flush 2, .purge "w",
    .purgeKey "w", .respond "w"]

theorem retrieved_has_no_gap : ∃ s c l, exec WatchNode.step {} retrieved = some s ∧ s.calls "w" = some c ∧
    c.initial = [⟨"k", "v", 1, .INIT_EXIST⟩] ∧ c.since "k" = some l ∧
    l.map WatchEntry.change = [⟨"k", "v2", 2, .OVERWRITTEN⟩] ∧
    l.map WatchEntry.change <:+ c.delivered.filter (·.key = "k") ++ s.onWay "w" c "k" := by
  have hs : exec WatchNode.step {} retrieved = some _ := rfl
  exact ⟨_, _, _, hs, rfl, rfl, rfl, rfl, (retrieve_has_no_gap rfl (by decide +kernel) hs).1 "w" _ "k" _ rfl rfl⟩

/-- The second write is in the batch when the watch is created. -/
def createdOverBatch : List WatchAct :=
  [.apply (.write { mKey := "k", mValue := "v", mVersion := 1 }), .flush 1,
    .apply (.write { mKey := "k", mValue := "v2", mVersion := 2 }), .create "w" [("k", 0)] true, .read "w" 7,
    .flush 2, .purge "w", .purgeKey "w", .respond "w"]

theorem createdOverBatch_has_gap : ∃ s c l, exec WatchNode.step {} createdOverBatch = some s ∧
    s.calls "w" = some c ∧ c.initial = [⟨"k", "v", 1, .INIT_EXIST⟩] ∧ c.since "k" = some l ∧
    l.map WatchEntry.change = [⟨"k", "v2", 2, .OVERWRITTEN⟩] ∧ c.delivered = [] ∧ s.onWay "w" c "k" = [] :=
  ⟨_, _, _, rfl, rfl, rfl, rfl, rfl, rfl, rfl⟩

end WatchNode

end Goblin.ObjectStore
