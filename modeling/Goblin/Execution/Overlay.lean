import Goblin.Execution.Alone

/-! A transaction key by key: what its overlay answers, what the cache holds and what the cache will
hold once the events are applied. -/
namespace Goblin.Execution

open Model Store Lib KVTransCommand Function

/-- What the entries so far have done to a key: nothing that the cache would show, a write that still
stands, or a removal that the overlay does not know of. `own` says that the transaction had written
the key itself before it removed it. -/
inductive KeyState
  | clean
  | written (ttl : ℕ)
  | gone (own : Bool)
  deriving DecidableEq

/-- A removal shows in the cache if the cache holds the key. -/
def afterRemoval (s : Stores) (e : RemoveEntry) : KeyState → KeyState
  | .clean => if Hits e (s.readKV e.key) ∧ (s.mem.mData e.key).isSome then .gone false else .clean
  | .written ttl => if e.version = kInvalidVersion then .gone true else .written ttl
  | .gone own => .gone own

def stateAfter (s : Stores) (σ : KeyType → KeyState) : Entry → KeyType → KeyState
  | .write e =>
    update σ e.key (.written (settledTTL s.now (s.readMeta e.key) e).2)
  | .read _ => σ
  | .remove e => update σ e.key (afterRemoval s e (σ e.key))
  | .unset => σ

/-- A read reaches the cache, and may erase an expired cell there, unless the overlay answers it. -/
def readAfter (s : Stores) (key : KeyType) (k : KeyState) : Stores :=
  if k = .clean then afterRead s key else s

def storesAfter (s : Stores) (σ : KeyType → KeyState) : Entry → Stores
  | .read e => readAfter s e.key (σ e.key)
  | .remove e => readAfter s e.key (σ e.key)
  | _ => s

section Total

variable {s s' : Stores} {req : TransRequest} {cond : CondState} {st st' : LoopState} {entry : Entry}

/-- One round of the loop over the entries that does not fail. -/
structure TransStep (req : TransRequest) (cond : CondState) (entry : Entry) (st : LoopState) (s : Stores) (e : Event)
    (st' : LoopState) (s' : Stores) : Prop where
  run : (execEntry req cond s.now st entry).run Stores.answer s = some (st', s')
  fits : Fits entry e
  pending : Pending e
  events : st'.events = st.events ++ [e]
  status : st'.status.isOK ∨ st'.status.isNotFound
  stop : st'.stop = st.stop

/-- The conditions let the put of the entry through. -/
def Admits (cond : CondState) (e : WriteEntry) : Prop :=
  e.key ∉ cond.ignoredUdfUintKeys ∧
    ∀ m, cond.udfUintKey2Meta e.key = some m → udfMetaIdentical e.udfMeta m = some true

theorem admits_of_empty (e : WriteEntry) : Admits {} e := ⟨by simp, by simp⟩

theorem transStep_write (req : TransRequest) (st : LoopState) (hdb : s.db.Healthy)
    {e : WriteEntry} (hadmits : Admits cond e) :
    ∃ st', TransStep req cond (.write e) st s (.write (putEvent s.now (s.readMeta e.key) e)) st' s ∧
      st'.tempStore = st.tempStore.writeTTLKV e.key e.value kInvalidVersion
        (putEvent s.now (s.readMeta e.key) e).record.ttl
        (putEvent s.now (s.readMeta e.key) e).record.deadline s.now e.udfMeta := by
  have hput : (execEntry req cond s.now st (.write e)).run Stores.answer s =
      (putEntry s.now st e (settledTTL s.now (s.readMeta e.key) e).1
        (settledTTL s.now (s.readMeta e.key) e).2).run Stores.answer s := by
    simp only [execEntry, writeEntry, hadmits.1, if_false, Program.run_bind, run_fixTTL_of_healthy hdb,
      Option.bind_some]
    cases hm : cond.udfUintKey2Meta e.key with
    | none => rfl
    | some m => simp only [hadmits.2 m hm]
  refine ⟨_, ⟨hput.trans rfl, rfl, ⟨rfl, by simp⟩, rfl, .inl rfl, rfl⟩, ?_⟩
  simp only [LoopState.push, putEvent]
  obtain ⟨enableTTL, ttl⟩ := settledTTL s.now (s.readMeta e.key) e
  cases enableTTL <;> rfl

theorem transStep_read {e : ReadEntry} {r : Status × ReadOut} (hstale : isFollowerReadCmd req = false)
    {t : TemporalKVStore} (hread : (st.tempStore.readKV e.key {}).run Stores.answer s = some ((r, t), s'))
    (hr : r.1 = .ok ∨ r.1 = .notFound (e.key ++ " not found") ∧ r.2.value = "") :
    ∃ event, TransStep req cond (.read e) st s event (st.push r.1 event) s' ∧
      IsReadEvent e.key r event := by
  have htemp : (tempReadKV false st.tempStore e.key).run Stores.answer s = some (r, s') := by
    simp [tempReadKV, hread]
  rcases hr with hok | ⟨hnf, hvalue⟩
  · obtain ⟨updateTime, udfMeta, hevent⟩ := run_newReadEvent (s := s') req.isMetaReturned e.key r.2
    refine ⟨foundEvent e.key r.2 updateTime udfMeta, ⟨?_, ⟨rfl, by simp⟩,
      ⟨rfl, by simp [foundEvent]⟩, rfl, by simp [LoopState.push, hok], rfl⟩,
      .inl ⟨by simp [hok], updateTime, udfMeta, rfl⟩⟩
    simp [execEntry, readEntry, hstale, htemp, hok, hevent]
  · refine ⟨notFoundEvent e.key r.2, ⟨?_, ⟨rfl, fun _ => hvalue⟩, ⟨rfl, by simp [notFoundEvent]⟩, rfl,
      by simp [LoopState.push, hnf], rfl⟩, .inr ⟨by simp [hnf], rfl⟩⟩
    simp [execEntry, readEntry, hstale, htemp, hnf]

theorem transStep_remove {e : RemoveEntry} {r : Status × ReadOut} {t : TemporalKVStore}
    (hread : (st.tempStore.readKV e.key {}).run Stores.answer s = some ((r, t), s'))
    (hr : r.1 = .ok ∨ r.1 = .notFound (e.key ++ " not found") ∧ r.2.value = "") :
    TransStep req cond (.remove e) st s (removalEvent e r)
      ({ st with tempStore := t }.push r.1 (removalEvent e r)) s' := by
  obtain ⟨hfits, hpending⟩ := fits_removalEvent e r
  rcases hr with hok | ⟨hnf, -⟩
  · refine ⟨?_, hfits, hpending, rfl, by simp [LoopState.push, hok], rfl⟩
    simp [execEntry, removeEntry, hread, hok, removalEvent]
  · refine ⟨?_, hfits, hpending, rfl, by simp [LoopState.push, hnf], rfl⟩
    simp [execEntry, removeEntry, hread, hnf, removalEvent]

/-- The overlay answers every read, and no error comes from the stores behind it. -/
theorem run_temporalReadKV_total (hdb : s.db.Healthy) (t : TemporalKVStore)
    (key : KeyType) :
    ∃ r t' s', (t.readKV key {}).run Stores.answer s = some ((r, t'), s') ∧ s'.db = s.db ∧
      s'.now = s.now ∧ (r.1 = .ok ∨ r.1 = .notFound (key ++ " not found") ∧ r.2.value = "") := by
  unfold TemporalKVStore.readKV
  cases t.mData key with
  | none =>
    cases t.mDeletedData key with
    | true => exact ⟨_, _, _, rfl, rfl, rfl, .inr ⟨rfl, rfl⟩⟩
    | false => exact ⟨_, _, _, rfl, rfl, rfl, readKV_ok_or_notFound hdb key⟩
  | some c =>
    by_cases ht : isTimeOut s.now c.deadline c.ttl
    · exact ⟨_, _, s, by simp [ht]; exact ⟨rfl, rfl⟩, rfl, rfl, .inr ⟨rfl, rfl⟩⟩
    · exact ⟨_, _, s, by simp [ht]; exact ⟨rfl, rfl⟩, rfl, rfl, .inl rfl⟩

theorem transStep_total (entry : Entry) (st : LoopState) (hdb : s.db.Healthy)
    (hadmits : ∀ e, entry = .write e → Admits cond e) (hstale : isFollowerReadCmd req = false) (hset : entry ≠ .unset) :
    ∃ e st' s', TransStep req cond entry st s e st' s' ∧ s'.db = s.db ∧ s'.now = s.now := by
  cases entry with
  | write e =>
    obtain ⟨st', hstep, -⟩ := transStep_write req st hdb (hadmits e rfl)
    exact ⟨_, st', s, hstep, rfl, rfl⟩
  | read e =>
    obtain ⟨r, t, s', hread, hdb', hnow, hr⟩ := run_temporalReadKV_total hdb st.tempStore e.key
    obtain ⟨event, hstep, -⟩ := transStep_read hstale hread hr
    exact ⟨event, _, s', hstep, hdb', hnow⟩
  | remove e =>
    obtain ⟨r, t, s', hread, hdb', hnow, hr⟩ := run_temporalReadKV_total hdb st.tempStore e.key
    exact ⟨_, _, s', transStep_remove hread hr, hdb', hnow⟩
  | unset => exact absurd rfl hset

end Total

/-- The cache as it will be once the events are applied under the version `n`. -/
def pendingMem (n : ℕ) (s : Stores) (events : List Event) : InMemoryKVStore :=
  Event.applyAll s.mem (events.map (Event.setVersion n))

/-- What a key looks like in the overlay, in the cache, and in the cache to come. -/
structure View where
  own : Option Cell
  ownDeleted : Bool
  data : Option Cell
  deleted : Option ℕ
  newData : Option Cell
  newDeleted : Option ℕ
  sets : List (Option Record)

def view (n : ℕ) (s : Stores) (st : LoopState) (key : KeyType) : View where
  own := st.tempStore.mData key
  ownDeleted := st.tempStore.mDeletedData key
  data := s.mem.mData key
  deleted := s.mem.mDeletedData key
  newData := (pendingMem n s st.events).mData key
  newDeleted := (pendingMem n s st.events).mDeletedData key
  sets := sets Event.effect key (st.events.map (Event.setVersion n))

/-- The view of a key in each of its states. -/
def KeyRel (n now : ℕ) (v : View) : KeyState → Prop
  | .clean => v.own = none ∧ v.ownDeleted = false ∧ v.newData = v.data ∧ v.newDeleted = v.deleted ∧
    (v.sets ≠ [] → v.data = none)
  | .written ttl => ∃ c, v.own = some c ∧ c.version = kInvalidVersion ∧ c.ttl = ttl ∧
    isTimeOut now c.deadline c.ttl = false ∧ v.newData = some { c with version := n }
  | .gone true => (∃ c, v.own = some c ∧ c.version = kInvalidVersion ∧
    isTimeOut now c.deadline c.ttl = false) ∧ v.newData = none ∧ v.newDeleted.isSome
  | .gone false => v.own = none ∧ v.ownDeleted = false ∧
    (∃ c, v.data = some c ∧ isTimeOut now c.deadline c.ttl = false) ∧ v.newData = none ∧
    v.newDeleted.isSome

/-- Every key of the transaction is in the state that the entries so far have brought it to. -/
def Overlay (n : ℕ) (s : Stores) (σ : KeyType → KeyState) (st : LoopState) : Prop :=
  ∀ key, KeyRel n s.now (view n s st key) (σ key)

/-- The deadline of no write wraps: neither under the ttl it asks for nor under one that it may take over. -/
structure Timely (s : Stores) (entries : List Entry) : Prop where
  asked : ∀ e, Entry.write e ∈ entries → e.enableTTL = true → e.ttl + s.now < 2 ^ 32
  cached : ∀ e c, Entry.write e ∈ entries → e.enableTTL = true → e.ttl = INFINITE_TTL →
    s.mem.mData e.key = some c → c.ttl + s.now < 2 ^ 32
  stored : ∀ e r, Entry.write e ∈ entries → e.enableTTL = true → e.ttl = INFINITE_TTL →
    s.db.mRocksDB e.key = some r → r.ttl + s.now < 2 ^ 32

/-- What the overlay answers to a read. -/
def overlayRead (s : Stores) (t : TemporalKVStore) (key : KeyType) : Status × ReadOut :=
  match t.mData key with
  | some c => (.ok, ⟨c.value, c.ttl, c.version⟩)
  | none => s.readKV key

section Reads

variable {n : ℕ} {s : Stores} {σ : KeyType → KeyState} {st : LoopState}

theorem Overlay.run_readKV (h : Overlay n s σ st) (key : KeyType) :
    (st.tempStore.readKV key {}).run Stores.answer s =
      some ((overlayRead s st.tempStore key, st.tempStore), readAfter s key (σ key)) := by
  have hkey := h key
  unfold TemporalKVStore.readKV overlayRead readAfter
  cases hσ : σ key with
  | clean =>
    rw [hσ] at hkey
    obtain ⟨hown, hdel, -⟩ := hkey
    simp only [view] at hown hdel
    simp [hown, hdel, Execution.run_readKV]
  | written ttl =>
    rw [hσ] at hkey
    obtain ⟨c, hown, -, -, htime, -⟩ := hkey
    simp only [view] at hown
    simp [hown, htime]
  | gone own =>
    rw [hσ] at hkey
    cases own with
    | true =>
      obtain ⟨⟨c, hown, -, htime⟩, -⟩ := hkey
      simp only [view] at hown
      simp [hown, htime]
    | false =>
      obtain ⟨hown, hdel, ⟨c, hdata, htime⟩, -⟩ := hkey
      simp only [view] at hown hdel hdata
      have hs : afterRead s key = s := by
        simp [afterRead, InMemoryKVStore.readKV, hdata, htime]
      simp [hown, hdel, Execution.run_readKV, hs]

theorem overlayRead_ok_or_notFound (hdb : s.db.Healthy) (t : TemporalKVStore)
    (key : KeyType) : (overlayRead s t key).1 = .ok ∨
      (overlayRead s t key).1 = .notFound (key ++ " not found") ∧ (overlayRead s t key).2.value = "" := by
  unfold overlayRead
  cases t.mData key with
  | some c => exact .inl rfl
  | none => exact readKV_ok_or_notFound hdb key

theorem Overlay.read_of_clean (h : Overlay n s σ st) {key : KeyType} (hσ : σ key = .clean) :
    overlayRead s st.tempStore key = s.readKV key := by
  have hkey := h key
  rw [hσ] at hkey
  have hown : st.tempStore.mData key = none := hkey.1
  simp [overlayRead, hown]

/-- A key that the transaction has written has no version in the overlay yet. -/
theorem Overlay.read_of_written (h : Overlay n s σ st) {key : KeyType} {ttl : ℕ}
    (hσ : σ key = .written ttl) : ∃ c : Cell,
      overlayRead s st.tempStore key = (.ok, ⟨c.value, c.ttl, kInvalidVersion⟩) ∧
      isTimeOut s.now c.deadline c.ttl = false ∧ c.ttl = ttl ∧
      (pendingMem n s st.events).mData key = some { c with version := n } := by
  have hkey := h key
  rw [hσ] at hkey
  obtain ⟨c, hown, hversion, httl, htime, hnew⟩ := hkey
  simp only [view] at hown hnew
  exact ⟨c, by simp [overlayRead, hown, hversion], htime, httl, hnew⟩

/-- A key that the transaction has removed from the cache is still found by its own reads. -/
theorem Overlay.read_of_gone (h : Overlay n s σ st) {key : KeyType} {own : Bool}
    (hσ : σ key = .gone own) : (overlayRead s st.tempStore key).1 = .ok ∧
      (own = true → (overlayRead s st.tempStore key).2.version = kInvalidVersion) ∧
      (own = false → overlayRead s st.tempStore key = s.readKV key) ∧
      (pendingMem n s st.events).mData key = none ∧
      ((pendingMem n s st.events).mDeletedData key).isSome := by
  have hkey := h key
  rw [hσ] at hkey
  cases own with
  | true =>
    obtain ⟨⟨c, hown, hversion, -⟩, hnew, hdel⟩ := hkey
    simp only [view] at hown hnew hdel
    exact ⟨by simp [overlayRead, hown], by simp [overlayRead, hown, hversion], by simp, hnew, hdel⟩
  | false =>
    obtain ⟨hown, -, ⟨c, hdata, htime⟩, hnew, hdel⟩ := hkey
    simp only [view] at hown hdata hnew hdel
    refine ⟨?_, by simp, by simp [overlayRead, hown], hnew, hdel⟩
    simp [overlayRead, hown, Stores.readKV, InMemoryKVStore.readKV, hdata, htime]

end Reads

section Views

variable {n : ℕ} {s : Stores} {σ : KeyType → KeyState} {st st' : LoopState} {e : Event} {key : KeyType}

theorem pendingMem_append (events : List Event) (e : Event) :
    pendingMem n s (events ++ [e]) = (e.setVersion n).apply (pendingMem n s events) := by
  simp [pendingMem, Event.applyAll]

theorem Fits.not_touches_of_read {r : ReadEntry} (h : Fits (.read r) e) (n : ℕ) (key : KeyType) :
    ¬ Touches Event.effect key (e.setVersion n) := by
  cases e with
  | read r => simp [Touches, Event.setVersion, Event.effect]
  | write w => cases h
  | delete d => cases h
  | importKV i => cases h

theorem view_of_not_touches (hevents : st'.events = st.events ++ [e])
    (htouch : ¬ Touches Event.effect key (e.setVersion n))
    (htemp : st'.tempStore.mData key = st.tempStore.mData key ∧
      st'.tempStore.mDeletedData key = st.tempStore.mDeletedData key) :
    view n s st' key = view n s st key := by
  obtain ⟨hdata, hdeleted⟩ := InMemoryKVStore.apply_of_not_touches (s := pendingMem n s st.events) htouch
  have hsets : sets Event.effect key [e.setVersion n] = [] := by
    rw [List.eq_nil_iff_forall_not_mem]
    intro v hv
    obtain ⟨f, hf, heff⟩ := (mem_sets Event.effect).mp hv
    rw [List.mem_singleton.mp hf] at heff
    exact htouch ⟨v, heff⟩
  simp [view, hevents, pendingMem_append, hdata, hdeleted, htemp, sets_append, hsets]

theorem not_touches_of_sets_eq_nil {events : List Event} (h : sets Event.effect key events = []) :
    ∀ e ∈ events, ¬ Touches Event.effect key e := by
  rintro e he ⟨v, hv⟩
  have hmem := (mem_sets Event.effect).mpr ⟨e, he, hv⟩
  simp [h] at hmem

theorem readAfter_db (s : Stores) (key : KeyType) (k : KeyState) : (readAfter s key k).db = s.db := by
  unfold readAfter
  split_ifs <;> rfl

theorem readAfter_now (s : Stores) (key : KeyType) (k : KeyState) : (readAfter s key k).now = s.now := by
  unfold readAfter
  split_ifs <;> rfl

theorem KeyRel.alive_of_not_clean {now : ℕ} {v : View} {k : KeyState} (h : KeyRel n now v k)
    (hk : k ≠ .clean) (c : Cell) (hc : v.newData = some c) : isTimeOut now c.deadline c.ttl = false := by
  cases k with
  | clean => exact absurd rfl hk
  | written ttl =>
    obtain ⟨d, -, -, -, htime, hnew⟩ := h
    rw [hnew] at hc
    cases hc
    exact htime
  | gone own =>
    cases own with
    | true => simp [h.2.1] at hc
    | false => simp [h.2.2.2.1] at hc

theorem Overlay.pendingMem_readAfter (h : Overlay n s σ st) (key : KeyType) :
    pendingMem n (readAfter s key (σ key)) st.events =
      ((pendingMem n s st.events).readKV s.db s.now key {}).2 := by
  have hkey := h key
  by_cases hσ : σ key = .clean
  · rw [hσ] at hkey ⊢
    obtain ⟨-, -, hdata, -, hsets⟩ := hkey
    simp only [view] at hdata hsets
    simp only [readAfter, if_true, afterRead]
    by_cases halive : ∀ c, s.mem.mData key = some c → isTimeOut s.now c.deadline c.ttl = false
    · rw [InMemoryKVStore.readKV_state_of_alive halive,
        InMemoryKVStore.readKV_state_of_alive (hdata ▸ halive)]
    · push Not at halive
      obtain ⟨c, hc, ht⟩ := halive
      have ht : isTimeOut s.now c.deadline c.ttl := by simpa using ht
      have hnil : sets Event.effect key (st.events.map (Event.setVersion n)) = [] := by
        by_contra hne
        simp [hsets hne] at hc
      rw [InMemoryKVStore.readKV_state_of_expired hc ht,
        InMemoryKVStore.readKV_state_of_expired (hdata.trans hc) ht]
      exact InMemoryKVStore.applyAll_eraseData (not_touches_of_sets_eq_nil hnil)
  · rw [readAfter, if_neg hσ,
      InMemoryKVStore.readKV_state_of_alive (hkey.alive_of_not_clean hσ)]

theorem view_readAfter (h : Overlay n s σ st) (key' : KeyType) :
    (view n (readAfter s key (σ key)) st key') = { view n s st key' with
      data := (readAfter s key (σ key)).mem.mData key'
      newData := ((pendingMem n s st.events).readKV s.db s.now key {}).2.mData key' } := by
  have hdel : (readAfter s key (σ key)).mem.mDeletedData key' = s.mem.mDeletedData key' := by
    unfold readAfter
    split_ifs
    · exact InMemoryKVStore.readKV_state_deleted
    · rfl
  simp only [view, h.pendingMem_readAfter, InMemoryKVStore.readKV_state_deleted, hdel]

theorem Overlay.touch (h : Overlay n s σ st) (key : KeyType) :
    Overlay n (readAfter s key (σ key)) σ st := by
  intro key'
  rw [readAfter_now, view_readAfter h]
  have hkey' := h key'
  by_cases hk : key' = key
  · subst hk
    by_cases hσ : σ key' = .clean
    · rw [hσ] at hkey' ⊢
      obtain ⟨hown, hdel, hdata, hdeleted, hsets⟩ := hkey'
      simp only [view] at hdata hsets
      refine ⟨hown, hdel, ?_, hdeleted, fun hne => ?_⟩
      · simp [readAfter, afterRead, InMemoryKVStore.readKV_state_self, hdata]
      · simp [readAfter, afterRead, InMemoryKVStore.readKV_state_self, hsets hne, visible]
    · rw [InMemoryKVStore.readKV_state_of_alive (hkey'.alive_of_not_clean hσ), readAfter, if_neg hσ]
      exact hkey'
  · have hdata : (readAfter s key (σ key)).mem.mData key' = s.mem.mData key' := by
      unfold readAfter
      split_ifs
      · exact InMemoryKVStore.readKV_state_data hk
      · rfl
    rw [hdata, InMemoryKVStore.readKV_state_data hk]
    exact hkey'

end Views

section Entries

variable {n : ℕ} {s : Stores} {σ : KeyType → KeyState} {st : LoopState}

variable {e : RemoveEntry} {r : Status × ReadOut} {st' : LoopState} {entries : List Entry}

theorem removalEvent_of_hits (h : Hits e r) :
    removalEvent e r = .delete ⟨e.key, r.2.value, r.2.version, kInvalidVersion⟩ := by
  unfold removalEvent removeEvent
  rw [if_pos h.1, if_neg]
  rintro ⟨hne, hne'⟩
  exact h.2.elim hne hne'

theorem removalEvent_of_not_hits (h : ¬ Hits e r) : removalEvent e r = notFoundEvent e.key r.2 := by
  unfold removalEvent removeEvent
  split_ifs with hok hne
  · rfl
  · exact absurd ⟨hok, by tauto⟩ h
  · rfl

theorem not_touches_removalEvent {key : KeyType} (hk : key ≠ e.key) :
      ¬ Touches Event.effect key ((removalEvent e r).setVersion n) := by
  by_cases hh : Hits e r
  · rw [removalEvent_of_hits hh]
    simpa [Touches, Event.setVersion, Event.effect] using hk.symm
  · rw [removalEvent_of_not_hits hh]
    simp [Touches, notFoundEvent, Event.setVersion, Event.effect]

theorem Overlay.afterRemoval_of_not_hits (h : Overlay n s σ st) (hh : ¬ Hits e (overlayRead s st.tempStore e.key)) :
      afterRemoval s e (σ e.key) = σ e.key := by
  cases hσ : σ e.key with
  | clean =>
    rw [h.read_of_clean hσ] at hh
    simp [afterRemoval, hh]
  | written ttl =>
    obtain ⟨c, hread, -⟩ := h.read_of_written hσ
    have hne : e.version ≠ kInvalidVersion := fun he => hh ⟨by simp [hread], .inl he⟩
    simp [afterRemoval, hne]
  | gone own => rfl

theorem Overlay.keyRel_hit (h : Overlay n s σ st) {d : DeleteEvent} (hh : Hits e (overlayRead s st.tempStore e.key))
    (htemp : st'.tempStore = st.tempStore) (hevents : st'.events = st.events ++ [.delete d]) (hd : d.mKey = e.key) :
    KeyRel n s.now (view n (readAfter s e.key (σ e.key)) st' e.key) (afterRemoval s e (σ e.key)) := by
  have hkey := (h.touch e.key) e.key
  rw [readAfter_now] at hkey
  have hnew : pendingMem n (readAfter s e.key (σ e.key)) st'.events =
      (pendingMem n (readAfter s e.key (σ e.key)) st.events).deleteKV e.key n := by
    rw [hevents, pendingMem_append, ← hd]
    rfl
  cases hσ : σ e.key with
  | clean =>
    rw [hσ] at hkey hnew
    obtain ⟨hown, hdel, hdata, hdeleted, -⟩ := hkey
    simp only [view] at hown hdel hdata hdeleted
    rw [h.read_of_clean hσ] at hh
    have hself : (readAfter s e.key .clean).mem.mData e.key = visible s.now (s.mem.mData e.key) :=
      InMemoryKVStore.readKV_state_self
    cases hm : s.mem.mData e.key with
    | none =>
      rw [hm, visible] at hself
      rw [hself] at hdata
      have hsame := InMemoryKVStore.deleteKV_of_none hdata n
      rw [hsame] at hnew
      simp only [afterRemoval, hm, Option.isSome_none, Bool.false_eq_true, and_false, if_false]
      simp only [KeyRel, view, htemp, hnew]
      exact ⟨hown, hdel, hdata.trans hself.symm, hdeleted, fun _ => hself⟩
    | some c =>
      have htime : isTimeOut s.now c.deadline c.ttl = false := by
        have hok := hh.1
        cases ht : isTimeOut s.now c.deadline c.ttl with
        | false => rfl
        | true => simp [Stores.readKV, InMemoryKVStore.readKV, hm, ht] at hok
      have hvis : visible s.now (some c) = some c := by simp [visible, htime]
      rw [hm, hvis] at hself
      rw [hself] at hdata
      obtain ⟨hgone, hrecord⟩ := InMemoryKVStore.deleteKV_of_some hdata n
      simp only [afterRemoval, hh, hm, Option.isSome_some, and_self, if_true]
      simp only [KeyRel, view, htemp, hnew]
      exact ⟨hown, hdel, ⟨c, hself, htime⟩, hgone, hrecord⟩
  | written ttl =>
    rw [hσ] at hkey hnew
    obtain ⟨c, hown, hversion, -, htime, hdata⟩ := hkey
    simp only [view] at hown hdata
    have hzero : e.version = kInvalidVersion := by
      obtain ⟨d, hread, -⟩ := h.read_of_written hσ
      exact hh.2.elim id fun he => he.trans (by rw [hread])
    obtain ⟨hgone, hrecord⟩ := InMemoryKVStore.deleteKV_of_some hdata n
    simp only [afterRemoval, hzero, if_true]
    simp only [KeyRel, view, htemp, hnew]
    exact ⟨⟨c, hown, hversion, htime⟩, hgone, hrecord⟩
  | gone own =>
    rw [hσ] at hkey hnew
    obtain ⟨-, -, -, hdata, -⟩ := (hσ ▸ h.touch e.key).read_of_gone hσ
    rw [InMemoryKVStore.deleteKV_of_none hdata] at hnew
    cases own <;> simpa only [afterRemoval, KeyRel, view, htemp, hnew] using hkey

theorem Overlay.keyRel_removal (h : Overlay n s σ st) (htemp : st'.tempStore = st.tempStore)
    (hevents : st'.events = st.events ++ [removalEvent e (overlayRead s st.tempStore e.key)]) :
    KeyRel n s.now (view n (readAfter s e.key (σ e.key)) st' e.key) (afterRemoval s e (σ e.key)) := by
  by_cases hh : Hits e (overlayRead s st.tempStore e.key)
  · rw [removalEvent_of_hits hh] at hevents
    exact h.keyRel_hit hh htemp hevents rfl
  · rw [removalEvent_of_not_hits hh] at hevents
    rw [h.afterRemoval_of_not_hits hh, view_of_not_touches hevents _ (by simp [htemp]),
      ← readAfter_now s e.key (σ e.key)]
    · exact (h.touch e.key) e.key
    · simp [Touches, notFoundEvent, Event.setVersion, Event.effect]

theorem keptTTL_lt {e : WriteEntry} (hdb : s.db.Healthy) (h : Timely s entries) (he : Entry.write e ∈ entries)
    (henable : e.enableTTL = true) (httl : e.ttl = INFINITE_TTL) {ttl : ℕ}
    (hkept : keptTTL s.now (s.readMeta e.key) = some ttl) : ttl + s.now < 2 ^ 32 := by
  unfold keptTTL at hkept
  split_ifs at hkept with hlends
  cases hkept
  unfold Stores.readMeta InMemoryKVStore.readMeta at hlends ⊢
  cases hm : s.mem.mData e.key with
  | some c => exact h.cached e c he henable httl hm
  | none =>
    rw [hm] at hlends
    dsimp only at hlends ⊢
    unfold RocksDBKVStore.readMeta at hlends ⊢
    rw [hdb.noError] at hlends ⊢
    cases hr : s.db.mRocksDB e.key with
    | none =>
      rw [hr] at hlends
      exact absurd hlends.1 Bool.false_ne_true
    | some r =>
      dsimp only
      rw [Record.parseMeta, if_pos (hdb.readable e.key r hr)]
      exact h.stored e r he henable httl hr

theorem isTimeOut_putEvent {e : WriteEntry} (hdb : s.db.Healthy) (h : Timely s entries)
    (he : Entry.write e ∈ entries) :
    isTimeOut s.now (putEvent s.now (s.readMeta e.key) e).record.deadline
      (putEvent s.now (s.readMeta e.key) e).record.ttl = false := by
  have hlt : (settledTTL s.now (s.readMeta e.key) e).1 = true →
      (settledTTL s.now (s.readMeta e.key) e).2 + s.now < 2 ^ 32 := by
    unfold settledTTL
    split_ifs with henable httl
    · cases hkept : keptTTL s.now (s.readMeta e.key) with
      | none => exact fun hflag => Bool.noConfusion hflag
      | some ttl => exact fun _ => keptTTL_lt hdb h he henable httl hkept
    · exact fun _ => h.asked e he henable
    · exact fun hflag => hflag.elim
  simp only [putEvent]
  generalize settledTTL s.now (s.readMeta e.key) e = r at hlt ⊢
  obtain ⟨enableTTL, ttl⟩ := r
  cases enableTTL with
  | false => rfl
  | true =>
    have hlt : ttl + s.now < 2 ^ 32 := hlt rfl
    simp only [WriteEvent.record, newWriteEvent, if_true, addDeadline, Nat.mod_eq_of_lt hlt, isTimeOut,
      INFINITE_TTL, Bool.and_eq_false_iff, decide_eq_false_iff_not]
    omega

theorem record_ttl_putEvent (now : ℕ) (r : Status × Meta) (e : WriteEntry) :
    (putEvent now r e).record.ttl = (settledTTL now r e).2 := by
  unfold settledTTL putEvent WriteEvent.record newWriteEvent settledTTL
  cases e.enableTTL with
  | false => rfl
  | true =>
    by_cases ht : e.ttl = INFINITE_TTL
    · cases keptTTL now r <;> simp [ht]
    · simp [ht]

theorem keyRel_write {e : WriteEntry} {w : WriteEvent} (hw : w = putEvent s.now (s.readMeta e.key) e)
    (halive : isTimeOut s.now w.record.deadline w.record.ttl = false) (hevents : st'.events = st.events ++ [.write w])
    (htemp : st'.tempStore = st.tempStore.writeTTLKV e.key e.value kInvalidVersion w.record.ttl
      w.record.deadline s.now e.udfMeta) :
    KeyRel n s.now (view n s st' e.key) (.written (settledTTL s.now (s.readMeta e.key) e).2) := by
  have hnoop : w.mIsNoOp = false := by rw [hw]; rfl
  have hkey : w.mKey = e.key := by rw [hw]; rfl
  have hvalue : w.mValue = e.value := by rw [hw]; rfl
  have htime : w.mUpdateTime = s.now := by rw [hw]; rfl
  have hnew : pendingMem n s st'.events = (pendingMem n s st.events).writeTTLKV e.key e.value n
      w.record.ttl w.record.deadline s.now w.mUdfMeta := by
    rw [hevents, pendingMem_append, ← hkey, ← hvalue, ← htime]
    exact WriteEvent.apply_memory { w with mVersion := n } _ hnoop
  refine ⟨⟨e.value, kInvalidVersion, w.record.ttl, w.record.deadline, s.now⟩, ?_, rfl, ?_, halive, ?_⟩
  · simp [view, htemp, TemporalKVStore.writeTTLKV]
  · rw [hw]
    exact record_ttl_putEvent _ _ _
  · simp [view, hnew, InMemoryKVStore.writeTTLKV]

theorem view_after_write {e : WriteEntry} {key : KeyType} (hk : key ≠ e.key)
    (hevents : st'.events = st.events ++ [.write (putEvent s.now (s.readMeta e.key) e)])
    (htemp : st'.tempStore = st.tempStore.writeTTLKV e.key e.value kInvalidVersion
      (putEvent s.now (s.readMeta e.key) e).record.ttl
      (putEvent s.now (s.readMeta e.key) e).record.deadline s.now e.udfMeta) :
    view n s st' key = view n s st key := by
  refine view_of_not_touches hevents ?_ ?_
  · simpa [Touches, Event.setVersion, Event.effect, putEvent, newWriteEvent] using Ne.symm hk
  · simp [htemp, TemporalKVStore.writeTTLKV, hk]

theorem Overlay.after_write (h : Overlay n s σ st) {e : WriteEntry} (hdb : s.db.Healthy) (ht : Timely s entries)
    (he : Entry.write e ∈ entries)
    (hevents : st'.events = st.events ++ [.write (putEvent s.now (s.readMeta e.key) e)])
    (htemp : st'.tempStore = st.tempStore.writeTTLKV e.key e.value kInvalidVersion
      (putEvent s.now (s.readMeta e.key) e).record.ttl
      (putEvent s.now (s.readMeta e.key) e).record.deadline s.now e.udfMeta) :
    Overlay n s (stateAfter s σ (.write e)) st' := by
  intro key
  by_cases hk : key = e.key
  · subst hk
    rw [stateAfter, update_self]
    exact keyRel_write rfl (isTimeOut_putEvent hdb ht he) hevents htemp
  · rw [stateAfter, update_of_ne hk, view_after_write hk hevents htemp]
    exact h key

theorem Overlay.after_read (h : Overlay n s σ st) {e : ReadEntry} {event : Event} (hfits : Fits (.read e) event)
    (hevents : st'.events = st.events ++ [event]) (htemp : st'.tempStore = st.tempStore) :
      Overlay n (readAfter s e.key (σ e.key)) σ st' := by
  intro key
  rw [view_of_not_touches hevents (hfits.not_touches_of_read n key) (by simp [htemp])]
  exact (h.touch e.key) key

theorem Overlay.after_remove (h : Overlay n s σ st)
    (hevents : st'.events = st.events ++ [removalEvent e (overlayRead s st.tempStore e.key)])
    (htemp : st'.tempStore = st.tempStore) :
    Overlay n (readAfter s e.key (σ e.key)) (stateAfter s σ (.remove e)) st' := by
  intro key
  by_cases hk : key = e.key
  · subst hk
    rw [readAfter_now, stateAfter, update_self]
    exact h.keyRel_removal htemp hevents
  · rw [stateAfter, update_of_ne hk,
      view_of_not_touches hevents (not_touches_removalEvent hk) (by simp [htemp])]
    exact (h.touch e.key) key

end Entries

section After

variable {s : Stores} {entries : List Entry}

theorem Timely.readAfter (h : Timely s entries) (key : KeyType) (k : KeyState) :
    Timely (readAfter s key k) entries := by
  refine ⟨fun e he henable => ?_, fun e c he henable httl hc => ?_, fun e r he henable httl hr => ?_⟩
  · rw [readAfter_now]
    exact h.asked e he henable
  · rw [readAfter_now]
    refine h.cached e c he henable httl ?_
    unfold Execution.readAfter at hc
    split_ifs at hc
    · by_cases hk : e.key = key
      · subst hk
        exact (visible_eq_some.mp (InMemoryKVStore.readKV_state_self.symm.trans hc)).1
      · exact (InMemoryKVStore.readKV_state_data hk).symm.trans hc
    · exact hc
  · rw [readAfter_now]
    rw [readAfter_db] at hr
    exact h.stored e r he henable httl hr

theorem storesAfter_db (σ : KeyType → KeyState) (entry : Entry) : (storesAfter s σ entry).db = s.db := by
  cases entry with
  | read e | remove e => exact readAfter_db s e.key _
  | write e => rfl
  | unset => rfl

theorem storesAfter_now (σ : KeyType → KeyState) (entry : Entry) :
    (storesAfter s σ entry).now = s.now := by
  cases entry with
  | read e | remove e => exact readAfter_now s e.key _
  | write e => rfl
  | unset => rfl

theorem Timely.storesAfter (h : Timely s entries) (σ : KeyType → KeyState) (entry : Entry) :
    Timely (storesAfter s σ entry) entries := by
  cases entry with
  | read e | remove e => exact h.readAfter e.key _
  | write e => exact h
  | unset => exact h

end After

end Goblin.Execution
