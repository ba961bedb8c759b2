import Goblin.Command.Basic
import Goblin.ObjectStore.WatchCenter

/-! Watches on one node: the apply loop writes to RocksDB and notifies, the calls of the clients purge what
was queued for them and answer with it. -/
namespace Goblin.ObjectStore

open Model Store Lib List Option Function

inductive EventType
  | INIT_EXIST | INIT_NOTEXIST | OVERWRITTEN | DELETED
  deriving DecidableEq, Repr

structure Change where
  key : KeyType
  value : ValueType
  version : ℕ
  eventType : EventType
  deriving DecidableEq, Repr

def WatchEntry.change (e : WatchEntry) : Change :=
  if e.mExists then ⟨e.mKey, e.mValue, e.mVersion, .OVERWRITTEN⟩ else ⟨e.mKey, "", e.mVersion, .DELETED⟩

/-- `entries` are those of the request. `toRead` and `initial` belong to the first response, and `collecting`
is a purge in progress: the keys to come and what was found so far. `history` keeps the changes that were
applied while the watch was registered, and `since` those after the state of RocksDB in which a key was
read. -/
structure WatchCall where
  entries : List (KeyType × ℕ)
  toRead : List KeyType := []
  initial : List Change := []
  code : ResponseCode := .OK
  collecting : Option (List KeyType × List WatchEntry) := none
  delivered : List Change := []
  history : List WatchEntry := []
  since : KeyType → Option (List WatchEntry) := fun _ => none

namespace WatchCall

def keys (c : WatchCall) : List KeyType := c.entries.map Prod.fst

def mKeyVersionMap (c : WatchCall) : KeyType → ℕ :=
  c.entries.foldl (fun m e => update m e.1 e.2) fun _ => 0

def needNotify (c : WatchCall) (e : WatchEntry) : Bool := c.mKeyVersionMap e.mKey < e.mRecordVersion

def collected (c : WatchCall) : List WatchEntry := (c.collecting.map Prod.snd).getD []

def record (c : WatchCall) (w : WatchEntry) : WatchCall :=
  { c with
    history := c.history ++ [w]
    since := update c.since w.mKey ((c.since w.mKey).map (· ++ [w])) }

/-- The changes of a key that are to be reported. -/
def changes (c : WatchCall) (key : KeyType) (l : List WatchEntry) : List Change :=
  ((l.filter (·.mKey = key)).filter c.needNotify).map WatchEntry.change

end WatchCall

/-- `readers` counts the purges that hold the lock of the center. `batched` keeps the changes that are not
flushed yet. -/
structure WatchNode where
  db : RocksDBKVStore := {}
  now : ℕ := 0
  center : WatchCenter := {}
  calls : WatchIdType → Option WatchCall := fun _ => none
  readers : ℕ := 0
  batched : List WatchEntry := []

inductive WatchAct
  | apply (e : Event)
  | flush (milestone : ℕ)
  | tick (now : ℕ)
  | create (watchId : WatchIdType) (entries : List (KeyType × ℕ)) (retrieveOnConnected : Bool)
  | read (watchId : WatchIdType) (version : ℕ)
  | purge (watchId : WatchIdType)
  | purgeKey (watchId : WatchIdType)
  | respond (watchId : WatchIdType)
  | cancel (watchId : WatchIdType)

namespace WatchNode

def setCall (s : WatchNode) (watchId : WatchIdType) (c : WatchCall) : WatchNode :=
  { s with calls := update s.calls watchId (some c) }

/-- Every registered watch of the key takes note of the change. -/
def recordChange (s : WatchNode) (w : WatchEntry) : WatchNode :=
  { s with
    calls := fun id => (s.calls id).map fun c =>
      if (s.center.mWatchId2KeyMap id).isSome ∧ w.mKey ∈ c.keys then c.record w else c
    batched := s.batched ++ [w] }

def apply (s : WatchNode) (e : Event) : WatchNode :=
  let s := (changeOf e).elim s s.recordChange
  { s with db := e.apply s.db, center := (notification e).elim s.center s.center.notify }

/-- One turn of the loop in `getAppliedBatch`; `version` is what the uninitialised variable holds. -/
def readKey (s : WatchNode) (c : WatchCall) (key : KeyType) (version : ℕ) : WatchCall :=
  let c := { c with since := update c.since key (some (s.batched.filter (·.mKey = key))) }
  let (status, out) := s.db.readKV s.now key { version }
  if status.isOK then { c with initial := c.initial ++ [⟨key, out.value, out.version, .INIT_EXIST⟩] }
  else if status.isNotFound then
    { c with initial := c.initial ++ [⟨key, out.value, out.version, .INIT_NOTEXIST⟩] }
  else { c with code := .GENERAL_ERROR }

def onRead (s : WatchNode) (watchId : WatchIdType) (version : ℕ) (c : WatchCall) : Option WatchNode :=
  match c.toRead with
  | key :: toRead => some (s.setCall watchId (s.readKey { c with toRead } key version))
  | [] => none

def onPurge (s : WatchNode) (watchId : WatchIdType) (c : WatchCall) : Option WatchNode :=
  match c.toRead, c.collecting, s.center.mWatchId2KeyMap watchId with
  | [], none, some keys =>
    some { s.setCall watchId { c with collecting := some (keys, []) } with readers := s.readers + 1 }
  | _, _, _ => none

def onPurgeKey (s : WatchNode) (watchId : WatchIdType) (c : WatchCall) : Option WatchNode :=
  match c.collecting with
  | some (key :: keys, vec) =>
    let c := { c with collecting := some (keys, vec ++ s.center.pending watchId key) }
    some { s.setCall watchId c with
      center := s.center.purgeKey watchId key
      readers := if keys = [] then s.readers - 1 else s.readers }
  | _ => none

def onRespond (s : WatchNode) (watchId : WatchIdType) (c : WatchCall) : Option WatchNode :=
  match c.collecting with
  | some ([], vec) =>
    let changes := (vec.filter c.needNotify).map WatchEntry.change
    some (s.setCall watchId { c with collecting := none, delivered := c.delivered ++ changes })
  | _ => none

/-- Registering and cancelling wait for the purges to let go of the lock; a watch can be cancelled once its
first response is sent. -/
def step (s : WatchNode) : WatchAct → Option WatchNode
  | .apply e => some (s.apply e)
  | .flush milestone => some { s with db := s.db.commit milestone, batched := [] }
  | .tick now => some { s with now }
  | .create watchId entries retrieveOnConnected =>
    if entries = [] ∨ (s.calls watchId).isSome ∨ s.readers ≠ 0 then none
    else
      let c : WatchCall := { entries }
      some { s.setCall watchId { c with toRead := if retrieveOnConnected then c.keys else [] } with
        center := s.center.registerWatch watchId c.keys }
  | .cancel watchId =>
    if s.readers ≠ 0 ∨ !(s.calls watchId).any (·.toRead = []) then none
    else (s.center.unRegisterWatch watchId).map fun center => { s with center }
  | .read watchId version => (s.calls watchId).bind (s.onRead watchId version)
  | .purge watchId => (s.calls watchId).bind (s.onPurge watchId)
  | .purgeKey watchId => (s.calls watchId).bind (s.onPurgeKey watchId)
  | .respond watchId => (s.calls watchId).bind (s.onRespond watchId)

/-- A watch lists no key twice, no write with a ttl goes to a watched key, and nothing is queued for a watch
that is cancelled. -/
def Admits (s : WatchNode) : WatchAct → Prop
  | .create _ entries _ => (entries.map Prod.fst).Nodup
  | .apply e => ∀ w ∈ changeOf e, notification e = none → s.center.mKey2WatchEntryMap w.mKey = []
  | .cancel watchId => ∀ keys ∈ s.center.mWatchId2KeyMap watchId, ∀ key ∈ keys, s.center.pending watchId key = []
  | _ => True

instance (s : WatchNode) : ∀ a, Decidable (s.Admits a)
  | .create _ entries _ => inferInstanceAs (Decidable (entries.map Prod.fst).Nodup)
  | .apply e => inferInstanceAs (Decidable (∀ w ∈ changeOf e, _ → _))
  | .cancel watchId => inferInstanceAs (Decidable (∀ keys ∈ s.center.mWatchId2KeyMap watchId, ∀ key ∈ keys, _))
  | .flush _ | .tick _ | .read _ _ | .purge _ | .purgeKey _ | .respond _ => isTrue trivial

/-- What is on its way to the client for a key. -/
def onWay (s : WatchNode) (watchId : WatchIdType) (c : WatchCall) (key : KeyType) : List Change :=
  c.changes key (c.collected ++ s.center.pending watchId key)

end WatchNode

section Changes

variable {c : WatchCall} {key : KeyType}

@[simp] theorem WatchEntry.key_change (e : WatchEntry) : e.change.key = e.mKey := by
  unfold change
  split_ifs <;> rfl

@[simp] theorem WatchCall.changes_nil : c.changes key [] = [] := rfl

@[simp] theorem WatchCall.changes_append (l l' : List WatchEntry) :
    c.changes key (l ++ l') = c.changes key l ++ c.changes key l' := by
  simp [changes]

theorem WatchCall.changes_of_ne {l : List WatchEntry} (h : ∀ e ∈ l, e.mKey ≠ key) : c.changes key l = [] := by
  have hnone : l.filter (·.mKey = key) = [] := filter_eq_nil_iff.mpr fun e he => by simpa using h e he
  simp [changes, hnone]

theorem WatchCall.filter_response (vec : List WatchEntry) :
    ((vec.filter c.needNotify).map WatchEntry.change).filter (·.key = key) = c.changes key vec := by
  simp [changes, List.filter_map, Function.comp_def, List.filter_filter, Bool.and_comm]

end Changes

theorem notification_eq_changeOf {e : Event} {w : WatchEntry} (h : notification e = some w) :
    changeOf e = some w := by
  have hwrite {e : WriteEvent} (h : writeNotification e = some w) : writeChange e = some w := by
    unfold writeNotification at h
    split_ifs at h with hcond
    rw [writeChange, if_neg fun hnoop => hcond (.inl hnoop), h]
  cases e with
  | read e => cases h
  | write e | importKV e => exact hwrite h
  | delete e => exact h

namespace WatchNode

/-- Whatever was applied for a key is delivered or on its way. -/
structure Inv (s : WatchNode) : Prop where
  sound : s.center.Sound
  own : ∀ id key, ∀ e ∈ s.center.pending id key, e.mKey = key
  ids : ∀ id keys, s.center.mWatchId2KeyMap id = some keys → ∃ c, s.calls id = some c ∧ c.keys = keys
  nodup : ∀ id c, s.calls id = some c → c.keys.Nodup
  balance : ∀ id c, s.calls id = some c → ∀ key ∈ c.keys,
    c.delivered.filter (·.key = key) ++ s.onWay id c key = c.changes key c.history

theorem Inv.initial (db : RocksDBKVStore) (now : ℕ) : Inv { db, now } where
  sound _ _ := rfl
  own := nofun
  ids := nofun
  nodup := nofun
  balance := nofun

variable {s t : WatchNode} {id : WatchIdType} {c c' : WatchCall}

theorem Inv.congr (h : s.Inv) (hcenter : t.center = s.center) (hcalls : t.calls = s.calls) : t.Inv where
  sound := hcenter ▸ h.sound
  own := hcenter ▸ h.own
  ids := hcenter ▸ hcalls ▸ h.ids
  nodup := hcalls ▸ h.nodup
  balance := by simpa only [onWay, hcenter, hcalls] using h.balance

theorem Inv.call (h : s.Inv) (hc : s.calls id = some c) (hcalls : t.calls = update s.calls id (some c'))
    (hentries : c'.entries = c.entries) (hhistory : c'.history = c.history) (hsound : t.center.Sound)
    (hown : ∀ id key, ∀ e ∈ t.center.pending id key, e.mKey = key)
    (hids : t.center.mWatchId2KeyMap = s.center.mWatchId2KeyMap)
    (hother : ∀ id', id' ≠ id → ∀ key, t.center.pending id' key = s.center.pending id' key)
    (hmoves : ∀ key, c'.delivered.filter (·.key = key) ++
        c.changes key (c'.collected ++ t.center.pending id key) =
      c.delivered.filter (·.key = key) ++ c.changes key (c.collected ++ s.center.pending id key)) : t.Inv := by
  have hkeys : c'.keys = c.keys := by rw [WatchCall.keys, hentries, WatchCall.keys]
  have hchanges : c'.changes = c.changes := by
    unfold WatchCall.changes WatchCall.needNotify WatchCall.mKeyVersionMap
    rw [hentries]
  have hcases {id' : WatchIdType} {d : WatchCall} (hd : t.calls id' = some d) :
      id' = id ∧ d = c' ∨ id' ≠ id ∧ s.calls id' = some d := by
    rw [hcalls] at hd
    by_cases hid : id' = id
    · subst hid
      exact .inl ⟨rfl, by simpa [eq_comm] using hd⟩
    · exact .inr ⟨hid, by simpa [hid] using hd⟩
  refine ⟨hsound, hown, fun id' keys hreg => ?_, fun id' d hd => ?_, fun id' d hd key hkey => ?_⟩
  · obtain ⟨d, hd, hdkeys⟩ := h.ids id' keys (hids ▸ hreg)
    by_cases hid : id' = id
    · subst hid
      obtain rfl := Option.some.inj (hc.symm.trans hd)
      exact ⟨c', by simp [hcalls], hkeys.trans hdkeys⟩
    · exact ⟨d, by simp [hcalls, hid, hd], hdkeys⟩
  · obtain ⟨rfl, rfl⟩ | ⟨-, hd⟩ := hcases hd
    · exact hkeys ▸ h.nodup _ _ hc
    · exact h.nodup id' d hd
  · obtain ⟨rfl, rfl⟩ | ⟨hid, hd⟩ := hcases hd
    · rw [onWay, hchanges, hhistory, hmoves]
      exact h.balance id' c hc key (hkeys ▸ hkey)
    · have hold := h.balance id' d hd key hkey
      rwa [onWay, ← hother id' hid key] at hold

theorem Inv.call_of_center (h : s.Inv) (hc : s.calls id = some c)
    (hcalls : t.calls = update s.calls id (some c')) (hentries : c'.entries = c.entries)
    (hhistory : c'.history = c.history) (hcenter : t.center = s.center)
    (hmoves : ∀ key, c'.delivered.filter (·.key = key) ++ c.changes key c'.collected =
      c.delivered.filter (·.key = key) ++ c.changes key c.collected) : t.Inv := by
  refine h.call hc hcalls hentries hhistory (hcenter ▸ h.sound) (hcenter ▸ h.own) (by rw [hcenter])
    (by simp [hcenter]) fun key => ?_
  rw [hcenter, WatchCall.changes_append, WatchCall.changes_append, ← append_assoc, hmoves,
    append_assoc]

theorem readKey_fields (c : WatchCall) (key : KeyType) (version : ℕ) :
    (s.readKey c key version).entries = c.entries ∧ (s.readKey c key version).toRead = c.toRead ∧
    (s.readKey c key version).history = c.history ∧ (s.readKey c key version).delivered = c.delivered ∧
    (s.readKey c key version).collected = c.collected ∧
    (s.readKey c key version).since = update c.since key (some (s.batched.filter (·.mKey = key))) := by
  simp only [readKey]
  split_ifs <;> exact ⟨rfl, rfl, rfl, rfl, rfl, rfl⟩

theorem Inv.onRead (h : s.Inv) (hc : s.calls id = some c) {version : ℕ}
    (hs : s.onRead id version c = some t) : t.Inv := by
  unfold WatchNode.onRead at hs
  split at hs
  · cases hs
    obtain ⟨hentries, -, hhistory, hdelivered, hcollected, -⟩ := readKey_fields _ _ version
    refine h.call_of_center hc rfl hentries hhistory rfl fun key => ?_
    rw [hdelivered, hcollected]
    rfl
  · cases hs

theorem Inv.onPurge (h : s.Inv) (hc : s.calls id = some c) (hs : s.onPurge id c = some t) : t.Inv := by
  unfold WatchNode.onPurge at hs
  split at hs
  · rename_i keys _ hcollecting _
    cases hs
    refine h.call_of_center hc rfl rfl rfl rfl fun key => ?_
    simp [WatchCall.collected, hcollecting]
  · cases hs

theorem Inv.onPurgeKey (h : s.Inv) (hc : s.calls id = some c) (hs : s.onPurgeKey id c = some t) : t.Inv := by
  unfold WatchNode.onPurgeKey at hs
  split at hs
  · rename_i purged keys vec hcollecting
    cases hs
    refine h.call hc rfl rfl rfl h.sound.purgeKey (fun id' key e he => ?_) rfl (fun id' hid key => ?_)
      fun key => ?_
    · rw [WatchCenter.pending_purgeKey] at he
      split_ifs at he
      · cases he
      · exact h.own id' key e he
    · rw [WatchCenter.pending_purgeKey, if_neg fun hboth => hid hboth.2]
    · simp only [WatchCall.collected, hcollecting, WatchCenter.pending_purgeKey, map_some,
        getD_some]
      by_cases hpurged : key = purged
      · simp [hpurged]
      · have hnone : c.changes key (s.center.pending id purged) = [] :=
          WatchCall.changes_of_ne fun e he => h.own id purged e he ▸ Ne.symm hpurged
        simp [hpurged, hnone]
  · cases hs

theorem Inv.onRespond (h : s.Inv) (hc : s.calls id = some c) (hs : s.onRespond id c = some t) : t.Inv := by
  unfold WatchNode.onRespond at hs
  split at hs
  · rename_i vec hcollecting
    cases hs
    refine h.call_of_center hc rfl rfl rfl rfl fun key => ?_
    simp [WatchCall.collected, hcollecting, WatchCall.filter_response]
  · cases hs

theorem Inv.create (h : s.Inv) {entries : List (KeyType × ℕ)} {retrieveOnConnected : Bool}
    (hadmits : s.Admits (.create id entries retrieveOnConnected))
    (hs : s.step (.create id entries retrieveOnConnected) = some t) : t.Inv := by
  have hcond : ¬ (entries = [] ∨ (s.calls id).isSome ∨ s.readers ≠ 0) := by
    intro hcond
    rw [step, if_pos hcond] at hs
    cases hs
  rw [step, if_neg hcond] at hs
  cases hs
  simp only [not_or, not_isSome_iff_eq_none] at hcond
  have hid : s.center.mWatchId2KeyMap id = none := by
    cases hreg : s.center.mWatchId2KeyMap id with
    | none => rfl
    | some keys =>
      obtain ⟨c, hc, -⟩ := h.ids id keys hreg
      cases hcond.2.1.symm.trans hc
  refine ⟨h.sound.registerWatch hid _, ?_, fun id' keys hreg => ?_, fun id' d hd => ?_, fun id' d hd key hkey => ?_⟩
  · intro id' key e he
    exact h.own id' key e (WatchCenter.pending_registerWatch _ ▸ he)
  · rw [WatchCenter.mWatchId2KeyMap_registerWatch] at hreg
    by_cases hid' : id' = id
    · subst hid'
      rw [update_self] at hreg
      exact ⟨_, update_self _ _ _, Option.some.inj hreg⟩
    · obtain ⟨d, hd, hkeys⟩ := h.ids id' keys (by simpa [hid'] using hreg)
      exact ⟨d, by simp [setCall, hid', hd], hkeys⟩
  · by_cases hid' : id' = id
    · subst hid'
      obtain rfl := Option.some.inj ((update_self id' _ s.calls).symm.trans hd)
      exact hadmits
    · exact h.nodup id' d (by simpa [setCall, hid'] using hd)
  · simp only [onWay, WatchCenter.pending_registerWatch]
    by_cases hid' : id' = id
    · subst hid'
      obtain rfl := Option.some.inj ((update_self id' _ s.calls).symm.trans hd)
      have hnone : s.center.pending id' key = [] := h.sound.pending_eq_nil (by rw [hid]; exact not_mem_nil)
      simp [WatchCall.collected, hnone]
    · exact h.balance id' d (by simpa [setCall, hid'] using hd) key hkey

theorem Inv.cancel (h : s.Inv) (hadmits : s.Admits (.cancel id)) (hs : s.step (.cancel id) = some t) : t.Inv := by
  simp only [step] at hs
  split_ifs at hs
  obtain ⟨center, hcenter, rfl⟩ := map_eq_some_iff.mp hs
  have hpending (id' : WatchIdType) (key : KeyType) : center.pending id' key =
      if id' = id then [] else s.center.pending id' key := by
    rw [WatchCenter.pending, WatchCenter.slot_unRegisterWatch hcenter]
    split_ifs with hid
    · subst hid
      rw [drop_of_length_le (h.sound id' key).le, flatMap_nil]
    · rfl
  refine ⟨h.sound.unRegisterWatch hcenter, fun id' key e he => ?_, fun id' keys hreg => ?_, h.nodup,
    fun id' d hd key hkey => ?_⟩
  · rw [hpending] at he
    split_ifs at he
    · cases he
    · exact h.own id' key e he
  · rw [WatchCenter.mWatchId2KeyMap_unRegisterWatch hcenter] at hreg
    by_cases hid : id' = id
    · simp [hid] at hreg
    · exact h.ids id' keys (by simpa [hid] using hreg)
  · have hold := h.balance id' d hd key hkey
    rw [onWay, hpending]
    split_ifs with hid
    · subst hid
      obtain ⟨keys, hkeys, -⟩ := map_eq_some_iff.mp hcenter
      obtain ⟨d', hd', rfl⟩ := h.ids id' keys hkeys
      obtain rfl := Option.some.inj (hd.symm.trans hd')
      rwa [onWay, hadmits _ hkeys key hkey] at hold
    · exact hold

theorem center_apply (e : Event) :
    (s.apply e).center = (notification e).elim s.center s.center.notify := by
  unfold WatchNode.apply
  cases changeOf e <;> rfl

theorem Inv.keys_of_ids (h : s.Inv) (hc : s.calls id = some c) {keys : List KeyType}
    (hkeys : s.center.mWatchId2KeyMap id = some keys) : keys = c.keys := by
  obtain ⟨d, hd, rfl⟩ := h.ids id keys hkeys
  rw [Option.some.inj (hd.symm.trans hc)]

/-- The queues take up a change for exactly the watches that are registered with its key. -/
theorem Inv.pending_apply (h : s.Inv) {e : Event} {w : WatchEntry} (hw : changeOf e = some w)
    (hadmits : s.Admits (.apply e)) (hc : s.calls id = some c) {key : KeyType} (hkey : key ∈ c.keys) :
    c.changes key ((s.apply e).center.pending id key) = c.changes key (s.center.pending id key) ++
      if (s.center.mWatchId2KeyMap id).isSome ∧ w.mKey ∈ c.keys then c.changes key [w] else [] := by
  rw [center_apply]
  cases hn : notification e with
  | none =>
    have hnot : ¬ ((s.center.mWatchId2KeyMap id).isSome ∧ w.mKey ∈ c.keys) := by
      rintro ⟨hsome, hmem⟩
      obtain ⟨keys, hkeys⟩ := isSome_iff_exists.mp hsome
      obtain ⟨wrap, hwrap, -⟩ := h.sound.exists_wrap hkeys (h.keys_of_ids hc hkeys ▸ hmem)
      simp [hadmits w hw hn] at hwrap
    simp [hnot]
  | some w' =>
    obtain rfl : w' = w := Option.some.inj ((notification_eq_changeOf hn).symm.trans hw)
    cases hids : s.center.mWatchId2KeyMap id with
    | none =>
      have hafter : (s.center.notify w').pending id key = [] :=
        (h.sound.notify w').pending_eq_nil (by simp [WatchCenter.notify, WatchCenter.setWraps, hids])
      have hbefore : s.center.pending id key = [] := h.sound.pending_eq_nil (by simp [hids])
      simp [hafter, hbefore]
    | some keys =>
      obtain rfl := h.keys_of_ids hc hids
      have hpending := WatchCenter.pending_notify h.sound hids
        (nodup_iff_count_le_one.mp (h.nodup id c hc) key) w'
      rw [elim_some, hpending, WatchCall.changes_append]
      congr 1
      by_cases hk : key = w'.mKey
      · subst hk
        simp [hkey]
      · have hnone : c.changes key [w'] = [] :=
          WatchCall.changes_of_ne fun e he => mem_singleton.mp he ▸ Ne.symm hk
        simp [hk, hnone]

theorem Inv.apply (h : s.Inv) {e : Event} (hadmits : s.Admits (.apply e)) : (s.apply e).Inv := by
  have hids : (s.apply e).center.mWatchId2KeyMap = s.center.mWatchId2KeyMap := by
    rw [center_apply]
    cases notification e <;> rfl
  have hsound : (s.apply e).center.Sound := by
    rw [center_apply]
    cases notification e with
    | none => exact h.sound
    | some w => exact h.sound.notify w
  cases hw : changeOf e with
  | none =>
    have hnone : notification e = none := by
      cases hn : notification e with
      | none => rfl
      | some w => cases (notification_eq_changeOf hn).symm.trans hw
    exact h.congr (by rw [center_apply, hnone]; rfl) (by simp [WatchNode.apply, hw])
  | some w =>
    have hcalls (id : WatchIdType) : (s.apply e).calls id = (s.calls id).map fun c =>
        if (s.center.mWatchId2KeyMap id).isSome ∧ w.mKey ∈ c.keys then c.record w else c := by
      simp [WatchNode.apply, hw, recordChange]
    have hkeys (id : WatchIdType) (c : WatchCall) : (if (s.center.mWatchId2KeyMap id).isSome ∧ w.mKey ∈ c.keys
        then c.record w else c).keys = c.keys := by
      split_ifs <;> rfl
    refine ⟨hsound, fun id key e' he' => ?_, fun id keys hreg => ?_, fun id d hd => ?_, fun id d hd key hkey => ?_⟩
    · rw [center_apply] at he'
      cases hn : notification e with
      | none => exact h.own id key e' (by simpa [hn] using he')
      | some w' =>
        rw [hn] at he'
        obtain hold | ⟨rfl, rfl⟩ := WatchCenter.mem_pending_notify he'
        · exact h.own id key e' hold
        · rfl
    · obtain ⟨c, hc, rfl⟩ := h.ids id keys (hids ▸ hreg)
      exact ⟨_, by rw [hcalls, hc]; rfl, hkeys id c⟩
    · obtain ⟨c, hc, rfl⟩ := map_eq_some_iff.mp ((hcalls id).symm.trans hd)
      rw [hkeys]
      exact h.nodup id c hc
    · obtain ⟨c, hc, rfl⟩ := map_eq_some_iff.mp ((hcalls id).symm.trans hd)
      rw [hkeys] at hkey
      have hold := h.balance id c hc key hkey
      have hpending := h.pending_apply hw hadmits hc hkey
      rw [onWay, WatchCall.changes_append] at hold
      split_ifs at hpending ⊢ with hwatches
      · change c.delivered.filter (·.key = key) ++ c.changes key (c.collected ++ _) =
          c.changes key (c.history ++ [w])
        rw [WatchCall.changes_append, WatchCall.changes_append, hpending, ← hold]
        simp only [append_assoc]
      · rw [onWay, WatchCall.changes_append, hpending, append_nil]
        exact hold

theorem Inv.step (h : s.Inv) {a : WatchAct} (hadmits : s.Admits a) (hs : s.step a = some t) : t.Inv := by
  cases a with
  | apply e =>
    cases hs
    exact h.apply hadmits
  | flush milestone | tick now =>
    cases hs
    exact h.congr rfl rfl
  | create id entries retrieveOnConnected => exact h.create hadmits hs
  | cancel id => exact h.cancel hadmits hs
  | read id version =>
    obtain ⟨c, hc, hs⟩ := bind_eq_some_iff.mp hs
    exact h.onRead hc hs
  | purge id =>
    obtain ⟨c, hc, hs⟩ := bind_eq_some_iff.mp hs
    exact h.onPurge hc hs
  | purgeKey id =>
    obtain ⟨c, hc, hs⟩ := bind_eq_some_iff.mp hs
    exact h.onPurgeKey hc hs
  | respond id =>
    obtain ⟨c, hc, hs⟩ := bind_eq_some_iff.mp hs
    exact h.onRespond hc hs

/-- In a run that meets the condition, what is delivered to a watch for a key, followed by what is on its
way, is at any time exactly what was applied for the key since it was registered and is newer than the given
version, once and in order; and nothing is on its way once the watch is cancelled and its last response is
sent. -/
theorem watch_delivers_once {db : RocksDBKVStore} {now : ℕ} {as : List WatchAct}
    (hG : Meets WatchNode.step Admits { db, now } as) (hs : exec WatchNode.step { db, now } as = some s)
    (hc : s.calls id = some c) {key : KeyType} (hkey : key ∈ c.keys) :
    c.delivered.filter (·.key = key) ++ s.onWay id c key = c.changes key c.history ∧
      (s.center.mWatchId2KeyMap id = none → c.collecting = none →
        c.delivered.filter (·.key = key) = c.changes key c.history) := by
  have hinv : s.Inv := exec_invariant (fun _ _ _ h hadmits hstep => h.step hadmits hstep) (.initial db now) hG hs
  have hbalance := hinv.balance id c hc key hkey
  refine ⟨hbalance, fun hcancelled hidle => ?_⟩
  have hnone : s.onWay id c key = [] := by
    rw [onWay, WatchCall.collected, hidle, hinv.sound.pending_eq_nil (by simp [hcancelled])]
    rfl
  rwa [hnone, append_nil] at hbalance

/-- Two changes of a watched key are purged together. -/
def watched : List WatchAct :=
  [.create "w" [("k", 0)] false, .apply (.write { mKey := "k", mValue := "v", mVersion := 1 }),
    .apply (.delete ⟨"k", "v", 1, 2⟩), .purge "w", .purgeKey "w", .respond "w", .cancel "w"]

theorem watched_delivers : ∃ s c, exec WatchNode.step {} watched = some s ∧ s.calls "w" = some c ∧
    c.delivered = [⟨"k", "v", 1, .OVERWRITTEN⟩, ⟨"k", "", 1, .DELETED⟩] ∧
    c.delivered.filter (·.key = "k") = c.changes "k" c.history := by
  have hrun : ∃ s, exec WatchNode.step {} watched = some s ∧ s.center.mWatchId2KeyMap "w" = none ∧
      (s.calls "w").any (fun c => c.collecting = none ∧ c.keys = ["k"] ∧
        c.delivered = [⟨"k", "v", 1, .OVERWRITTEN⟩, ⟨"k", "", 1, .DELETED⟩]) = true :=
    exists_exec_of_any (by decide +kernel)
  obtain ⟨s, hs, hcancelled, hcall⟩ := hrun
  obtain ⟨c, hc, hprops⟩ := (any_eq_true _ _).mp hcall
  obtain ⟨hidle, hkeys, hdelivered⟩ := of_decide_eq_true hprops
  refine ⟨s, c, hs, hc, hdelivered, ?_⟩
  exact (watch_delivers_once (by decide +kernel) hs hc (by simp [hkeys])).2 hcancelled hidle

/-- A write with a ttl to a watched key. -/
def writtenWithTTL : List WatchAct :=
  [.create "w" [("k", 0)] false,
    .apply (.write { mKey := "k", mValue := "v", mVersion := 1, mEnableTTL := true, mTTL := 10, mDeadline := 10 }),
    .purge "w", .purgeKey "w", .respond "w"]

theorem writtenWithTTL_not_delivered : ∃ s c, exec WatchNode.step {} writtenWithTTL = some s ∧
    s.calls "w" = some c ∧ c.delivered = [] ∧ s.onWay "w" c "k" = [] ∧
    c.changes "k" c.history = [⟨"k", "v", 1, .OVERWRITTEN⟩] :=
  ⟨_, _, rfl, rfl, rfl, rfl, rfl⟩

end WatchNode

end Goblin.ObjectStore
