import Goblin.Execution.Overlay
import Goblin.Store.Alike

/-! A transaction against the same entries executed one after the other as commands of their own. -/
namespace Goblin.Execution

open Model Store Lib KVTransCommand List Function

/-- The ttl that a write without one would take over if the entries before it had been executed. -/
def keptAfter (s : Stores) (key : KeyType) : KeyState → Option ℕ
  | .clean => keptTTL s.now (s.readMeta key)
  | .written ttl => if ttl = INFINITE_TTL then none else some ttl
  | .gone _ => keptTTL s.now (s.db.readMeta key)

/-- The versions that the separate commands allocate: the next one, and the one of the last write of a key. -/
structure Allocated where
  next : ℕ
  last : KeyType → ℕ := fun _ => kInvalidVersion

/-- The removal finds its key when the entries before it have been executed. -/
def Finds (s : Stores) (e : RemoveEntry) : KeyState → Prop
  | .clean => Hits e (s.readKV e.key)
  | .written _ => e.version = kInvalidVersion
  | .gone _ => False

instance (s : Stores) (e : RemoveEntry) : (k : KeyState) → Decidable (Finds s e k)
  | .clean => inferInstanceAs (Decidable (Hits _ _))
  | .written _ => inferInstanceAs (Decidable (_ = _))
  | .gone _ => inferInstanceAs (Decidable False)

def allocatedAfter (s : Stores) (σ : KeyType → KeyState) (a : Allocated) : Entry → Allocated
  | .write e => ⟨a.next + 1, update a.last e.key a.next⟩
  | .remove e => if Finds s e (σ e.key) then { a with next := a.next + 1 } else a
  | _ => a

/-- The removal of a key in this state finds in the transaction what it finds in a command of its own; `last` is
the version that the last write of the key would have been given. -/
def RemovesAlike (s : Stores) (last : ℕ) (e : RemoveEntry) : KeyState → Prop
  | .clean => True
  | .written _ => e.version = kInvalidVersion ∨ e.version ≠ last
  | .gone own => e.version ≠ kInvalidVersion ∧ (own ∨ e.version ≠ (s.readKV e.key).2.version)

/-- The entry does in the transaction what it does as a command of its own: it does not read or
remove a key again that the transaction has removed from the cache, it does not remove a key that the
transaction has written under the version that the write would have been given, and the ttl it takes over
is not one that the transaction has changed. -/
def Agrees (s : Stores) (σ : KeyType → KeyState) (a : Allocated) : Entry → Prop
  | .write e => e.enableTTL → e.ttl = INFINITE_TTL →
    keptTTL s.now (s.readMeta e.key) = keptAfter s e.key (σ e.key)
  | .read e => ∀ own, σ e.key ≠ .gone own
  | .remove e => RemovesAlike s (a.last e.key) e (σ e.key)
  | .unset => False

/-- Every entry agrees, with the keys and the cache as the entries before it have left them. -/
def Agreeing : Stores → (KeyType → KeyState) → Allocated → List Entry → Prop
  | _, _, _, [] => True
  | s, σ, a, entry :: entries => Agrees s σ a entry ∧
    Agreeing (storesAfter s σ entry) (stateAfter s σ entry) (allocatedAfter s σ a entry) entries

/-- The separate commands have given the key a version of their own, or left it as it was. -/
def OwnVersion (s : Stores) (a : Allocated) (q : Processor) (key : KeyType) : KeyState → Prop
  | .clean => q.stores.mem.mData key = s.mem.mData key ∧ q.stores.mem.mDeletedData key = s.mem.mDeletedData key
  | .written _ => ∀ c, q.stores.mem.mData key = some c → c.version = a.last key
  | .gone _ => True

/-- The transaction and the separate commands are in step. -/
structure Sim (n : ℕ) (s : Stores) (σ : KeyType → KeyState) (a : Allocated) (st : LoopState) (q : Processor) :
    Prop where
  alike : (pendingMem n s st.events).Alike n q.stores.mem
  db : q.stores.db = s.db
  now : q.stores.now = s.now
  next : q.versions.mNextVersion = a.next
  le : n ≤ a.next
  versions : ∀ key, OwnVersion s a q key (σ key)
  keys : Overlay n s σ st

section Reads

variable {n : ℕ} {s : Stores} {σ : KeyType → KeyState} {a : Allocated} {st : LoopState} {q : Processor}

variable {r r' : Status × Meta}

/-- What the separate commands have not changed they read as the transaction does. -/
theorem Sim.readKV_of_clean (h : Sim n s σ a st q) {key : KeyType} (hσ : σ key = .clean) :
    q.stores.readKV key = s.readKV key := by
  have hsame := h.versions key
  rw [hσ] at hsame
  rw [Stores.readKV, Stores.readKV, h.db, h.now]
  exact InMemoryKVStore.readKV_congr hsame.1 hsame.2

/-- A key that the transaction has written is found on both sides, under a version of its own. -/
theorem Sim.reads_of_written (h : Sim n s σ a st q) {key : KeyType} {ttl : ℕ} (hσ : σ key = .written ttl) :
    (overlayRead s st.tempStore key).1 = .ok ∧ (q.stores.readKV key).1 = .ok ∧
      (overlayRead s st.tempStore key).2.value = (q.stores.readKV key).2.value ∧
      (overlayRead s st.tempStore key).2.version = kInvalidVersion ∧
      (q.stores.readKV key).2.version = a.last key := by
  obtain ⟨c, hread, htime, -, hnew⟩ := h.keys.read_of_written hσ
  have halike := h.alike.data key
  rw [hnew] at halike
  cases hq : q.stores.mem.mData key with
  | none =>
    rw [hq] at halike
    exact halike.elim
  | some c' =>
    rw [hq] at halike
    have hc : Cell.Alike n { c with version := n } c' := halike
    have htime' : isTimeOut q.stores.now c'.deadline c'.ttl = false := by
      rw [h.now, ← hc.deadline, ← hc.ttl]
      exact htime
    have hversion : c'.version = a.last key := by
      have hnumbered := h.versions key
      rw [hσ] at hnumbered
      exact hnumbered c' hq
    simp [hread, Stores.readKV, InMemoryKVStore.readKV, hq, htime', hversion, ← hc.value]

theorem Sim.readKV_of_gone (h : Sim n s σ a st q) {key : KeyType} {own : Bool} (hσ : σ key = .gone own) :
    (q.stores.readKV key).1.isOK = false := by
  obtain ⟨-, -, -, hnew, hdel⟩ := h.keys.read_of_gone hσ
  obtain ⟨v, hv⟩ := Option.isSome_iff_exists.mp hdel
  have hnf : ((pendingMem n s st.events).readKV s.db s.now key {}).1.1.isOK = false := by
    simp [InMemoryKVStore.readKV, hnew, hv]
  rw [Stores.readKV, h.db, h.now, ← (h.alike.readKV s.db s.now key {}).1.status]
  exact hnf

theorem Sim.seenRead_eq_iff (h : Sim n s σ a st q) (e : ReadEntry) :
    seenRead e.key (overlayRead s st.tempStore e.key) = seenRead e.key (q.stores.readKV e.key) ↔
      Agrees s σ a (.read e) := by
  unfold seenRead Agrees
  cases hσ : σ e.key with
  | clean =>
    have hread := h.keys.read_of_clean hσ
    simp [hσ, hread, h.readKV_of_clean hσ]
  | written ttl =>
    obtain ⟨hok, hok', hvalue, -⟩ := h.reads_of_written hσ
    simp [hσ, hok, hok', hvalue]
  | gone own =>
    obtain ⟨hok, -⟩ := h.keys.read_of_gone hσ
    have hnok := h.readKV_of_gone hσ
    simp [hσ, hok, hnok]

theorem Sim.hits_of_written (h : Sim n s σ a st q) {e : RemoveEntry} {ttl : ℕ} (hσ : σ e.key = .written ttl) :
    (Hits e (overlayRead s st.tempStore e.key) ↔ e.version = kInvalidVersion) ∧
      (Hits e (q.stores.readKV e.key) ↔ e.version = kInvalidVersion ∨ e.version = a.last e.key) := by
  obtain ⟨hok, hok', -, hversion, hlast⟩ := h.reads_of_written hσ
  simp [Hits, hok, hok', hversion, hlast]

theorem Sim.seenRemoval_eq_iff (h : Sim n s σ a st q) (e : RemoveEntry) :
    seenRemoval e (overlayRead s st.tempStore e.key) = seenRemoval e (q.stores.readKV e.key) ↔
      Agrees s σ a (.remove e) := by
  rw [seenRemoval, seenRemoval, Agrees]
  cases hσ : σ e.key with
  | clean =>
    have hread := h.keys.read_of_clean hσ
    simp [RemovesAlike, hread, h.readKV_of_clean hσ]
  | written ttl =>
    obtain ⟨-, -, hvalue, -⟩ := h.reads_of_written hσ
    obtain ⟨hhit, hhit'⟩ := h.hits_of_written hσ
    by_cases hzero : e.version = kInvalidVersion
    · simp [RemovesAlike, hhit.mpr hzero, hhit'.mpr (.inl hzero), hvalue, hzero]
    · rw [if_neg (mt hhit.mp hzero)]
      by_cases hlast : e.version = a.last e.key
      · simpa [RemovesAlike, hhit'.mpr (.inr hlast), hlast] using hlast ▸ hzero
      · simp [RemovesAlike, mt hhit'.mp (not_or.mpr ⟨hzero, hlast⟩), hlast]
  | gone own =>
    obtain ⟨hok, hown, hread, -⟩ := h.keys.read_of_gone hσ
    have hnok := h.readKV_of_gone hσ
    have hmiss : ¬ Hits e (q.stores.readKV e.key) := by simp [Hits, hnok]
    rw [if_neg hmiss]
    have hhit : Hits e (overlayRead s st.tempStore e.key) ↔
        ¬ (e.version ≠ kInvalidVersion ∧ (own ∨ e.version ≠ (s.readKV e.key).2.version)) := by
      simp only [Hits, hok, Status.isOK_ok, true_and]
      cases own with
      | true => simp [hown rfl]
      | false =>
        rw [hread rfl]
        simp [imp_iff_not_or]
    rw [RemovesAlike]
    by_cases hh : Hits e (overlayRead s st.tempStore e.key)
    · simpa [hh] using hhit.mp hh
    · simpa [hh] using not_not.mp (mt hhit.mpr hh)

/-- An entry that agrees finds its key in the separate commands exactly if it does in the transaction. -/
theorem Sim.hits_iff (h : Sim n s σ a st q) {e : RemoveEntry} (ha : Agrees s σ a (.remove e)) :
    Hits e (q.stores.readKV e.key) ↔ Finds s e (σ e.key) := by
  rw [Agrees] at ha
  cases hσ : σ e.key with
  | clean => rw [h.readKV_of_clean hσ, Finds]
  | written ttl =>
    rw [hσ] at ha
    rw [(h.hits_of_written hσ).2, Finds]
    exact or_iff_left_of_imp fun hlast => ha.resolve_right fun hne => hne hlast
  | gone own =>
    have hnok := h.readKV_of_gone hσ
    simp [Hits, hnok, Finds]

theorem keptTTL_congr {now : ℕ} (hstatus : r.1 = r'.1) (hmeta : r.2.ttl = r'.2.ttl ∧ r.2.deadline = r'.2.deadline) :
      keptTTL now r = keptTTL now r' := by
  unfold keptTTL
  rw [hstatus, hmeta.1, hmeta.2]

theorem Sim.keptTTL_eq (h : Sim n s σ a st q) (key : KeyType) :
    keptTTL s.now (q.stores.readMeta key) = keptAfter s key (σ key) := by
  have hkey := h.keys key
  have halike := h.alike.readMeta s.db key
  rw [Stores.readMeta, h.db, ← keptTTL_congr halike.1 halike.2]
  cases hσ : σ key with
  | clean =>
    rw [hσ] at hkey
    obtain ⟨-, -, hdata, -⟩ := hkey
    simp only [view] at hdata
    refine keptTTL_congr ?_ ?_ <;>
      simp only [Stores.readMeta, InMemoryKVStore.readMeta, hdata] <;> cases s.mem.mData key <;> simp
  | written ttl =>
    rw [hσ] at hkey
    obtain ⟨c, -, -, rfl, htime, hnew⟩ := hkey
    simp only [view] at hnew
    by_cases ht : c.ttl = INFINITE_TTL
    · simp [keptTTL, keptAfter, InMemoryKVStore.readMeta, hnew, ht]
    · have hlt : s.now < c.deadline := by simpa [isTimeOut, ht] using htime
      simp [keptTTL, keptAfter, InMemoryKVStore.readMeta, hnew, ht, hlt]
  | gone own =>
    rw [hσ] at hkey
    have hnew : (pendingMem n s st.events).mData key = none := by
      cases own with
      | true => exact hkey.2.1
      | false => exact hkey.2.2.2.1
    simp [keptAfter, InMemoryKVStore.readMeta, hnew]

theorem settledTTL_eq_iff {now : ℕ} {e : WriteEntry} : settledTTL now r e = settledTTL now r' e ↔
      (e.enableTTL → e.ttl = INFINITE_TTL → keptTTL now r = keptTTL now r') := by
  unfold settledTTL
  cases e.enableTTL with
  | false => simp
  | true =>
    by_cases ht : e.ttl = INFINITE_TTL
    · cases keptTTL now r <;> cases keptTTL now r' <;> simp [ht]
    · simp [ht]

theorem putEvent_eq_iff {now : ℕ} {e : WriteEntry} :
    putEvent now r e = putEvent now r' e ↔ settledTTL now r e = settledTTL now r' e := by
  refine ⟨fun h => ?_, fun h => by rw [putEvent, putEvent, h]⟩
  have hflag : (settledTTL now r e).1 = (settledTTL now r' e).1 := congrArg WriteEvent.mEnableTTL h
  have httl : (settledTTL now r e).2 = (settledTTL now r' e).2 := congrArg WriteEvent.mTTL h
  exact Prod.ext hflag httl

theorem Sim.putEvent_eq_iff (h : Sim n s σ a st q) (e : WriteEntry) :
    putEvent s.now (s.readMeta e.key) e = putEvent q.stores.now (q.stores.readMeta e.key) e ↔
      Agrees s σ a (.write e) := by
  rw [h.now, Execution.putEvent_eq_iff, settledTTL_eq_iff, h.keptTTL_eq]
  rfl

end Reads

theorem eq_of_seen_write {w w' : WriteEvent} (hp : Pending (.write w)) (hp' : Pending (.write w'))
    (h : seen (.write w) = seen (.write w')) : w = w' := by
  have h0 : w.mVersion = kInvalidVersion := hp.1
  have h0' : w'.mVersion = kInvalidVersion := hp'.1
  cases w
  cases w'
  simp_all [seen]

theorem alike_apply {n v v' : ℕ} {m m' : InMemoryKVStore} {e e' : Event} (h : m.Alike n m')
    (hseen : seen e = seen e') (hp : Pending e) (hp' : Pending e') (hv : n ≤ v) (hv' : n ≤ v') :
    ((e.setVersion v).apply m).Alike n ((e'.setVersion v').apply m') := by
  have hversion : VersionAlike n v v' := .inr ⟨hv, hv'⟩
  cases e with
  | read r =>
    cases e' with
    | read r' => exact h
    | write w' => simp only [seen] at hseen; split_ifs at hseen
    | delete d' => simp only [seen] at hseen; split_ifs at hseen
    | importKV i' => exact absurd rfl (hp'.2 i')
  | write w =>
    cases e' with
    | read r' => simp only [seen] at hseen; split_ifs at hseen
    | write w' =>
      obtain rfl := eq_of_seen_write hp hp' hseen
      cases hn : w.mIsNoOp with
      | true => simpa [Event.setVersion, Event.apply, WriteEvent.apply, hn] using h
      | false =>
        simp only [Event.setVersion, Event.apply]
        rw [WriteEvent.apply_memory { w with mVersion := v } m hn,
          WriteEvent.apply_memory { w with mVersion := v' } m' hn]
        exact h.writeTTLKV _ _ hversion _ _ _ _
    | delete d' => cases hseen
    | importKV i' => exact absurd rfl (hp'.2 i')
  | delete d =>
    cases e' with
    | read r' => simp only [seen] at hseen; split_ifs at hseen
    | write w' => cases hseen
    | delete d' =>
      have hkey : d.mKey = d'.mKey := by
        simp only [seen, Seen.removed.injEq] at hseen
        exact hseen.1
      simp only [Event.setVersion, Event.apply, KVStore.deleteKV, hkey]
      exact h.deleteKV _ hversion
    | importKV i' => exact absurd rfl (hp'.2 i')
  | importKV i => exact absurd rfl (hp.2 i)

section Steps

variable {n : ℕ} {s : Stores} {σ : KeyType → KeyState} {a a' : Allocated} {st st' : LoopState} {q q' : Processor}
  {req : TransRequest}

theorem Sim.push {σ' : KeyType → KeyState} {e e' : Event} (h : Sim n s σ a st q) (hseen : seen e = seen e')
    (hp : Pending e) (hp' : Pending e') (hevents : st'.events = st.events ++ [e])
    (hq : q'.stores = { q.stores with mem := (e'.setVersion q.versions.mNextVersion).apply q.stores.mem })
    (hnext : q'.versions.mNextVersion = a'.next) (hle : a.next ≤ a'.next)
    (hversions : ∀ key, OwnVersion s a' q' key (σ' key)) (hkeys : Overlay n s σ' st') : Sim n s σ' a' st' q' where
  alike := by
    rw [hevents, pendingMem_append, hq]
    refine alike_apply h.alike hseen hp hp' (Nat.le_refl n) ?_
    rw [h.next]
    exact h.le
  db := by rw [hq]; exact h.db
  now := by rw [hq]; exact h.now
  next := hnext
  le := h.le.trans hle
  versions := hversions
  keys := hkeys

/-- An event leaves the numbering of the keys that it does not touch alone. -/
theorem OwnVersion.of_not_touches {key : KeyType} {k : KeyState} {e : Event} {a' : Allocated}
    (h : OwnVersion s a q key k)
    (hq : q'.stores.mem = e.apply q.stores.mem) (htouch : ¬ Touches Event.effect key e)
    (hlast : a'.last key = a.last key) : OwnVersion s a' q' key k := by
  obtain ⟨hdata, hdeleted⟩ := InMemoryKVStore.apply_of_not_touches (s := q.stores.mem) htouch
  cases k with
  | clean => exact ⟨by rw [hq, hdata]; exact h.1, by rw [hq, hdeleted]; exact h.2⟩
  | written ttl =>
    intro c hc
    rw [hq, hdata] at hc
    rw [hlast]
    exact h c hc
  | gone own => trivial

theorem OwnVersion.touch (hnow : q.stores.now = s.now) (key : KeyType) {key' : KeyType}
    (h : OwnVersion s a q key' (σ key')) :
    OwnVersion (readAfter s key (σ key)) a { q with stores := afterRead q.stores key } key' (σ key') := by
  have hdeleted : (afterRead q.stores key).mem.mDeletedData key' = q.stores.mem.mDeletedData key' :=
    InMemoryKVStore.readKV_state_deleted
  by_cases hk : key' = key
  · subst hk
    have hdata : (afterRead q.stores key').mem.mData key' = visible q.stores.now (q.stores.mem.mData key') :=
      InMemoryKVStore.readKV_state_self
    cases hσ : σ key' with
    | clean =>
      rw [hσ] at h
      rw [readAfter, if_pos rfl]
      refine ⟨?_, ?_⟩
      · rw [hdata, h.1, hnow]
        exact InMemoryKVStore.readKV_state_self.symm
      · rw [hdeleted, h.2]
        exact InMemoryKVStore.readKV_state_deleted.symm
    | written ttl =>
      rw [hσ] at h
      intro c hc
      have hc : (afterRead q.stores key').mem.mData key' = some c := hc
      rw [hdata] at hc
      exact h c (visible_eq_some.mp hc).1
    | gone own => trivial
  · have hdata : (afterRead q.stores key).mem.mData key' = q.stores.mem.mData key' :=
      InMemoryKVStore.readKV_state_data hk
    cases hσ : σ key' with
    | clean =>
      rw [hσ] at h
      refine ⟨hdata.trans (h.1.trans ?_), hdeleted.trans (h.2.trans ?_)⟩
      · unfold readAfter
        split_ifs
        · exact (InMemoryKVStore.readKV_state_data hk).symm
        · rfl
      · unfold readAfter
        split_ifs
        · exact InMemoryKVStore.readKV_state_deleted.symm
        · rfl
    | written ttl =>
      rw [hσ] at h
      intro c hc
      exact h c (hdata.symm.trans hc)
    | gone own => trivial

theorem Sim.touch (h : Sim n s σ a st q) (key : KeyType) :
    Sim n (readAfter s key (σ key)) σ a st { q with stores := afterRead q.stores key } :=
  { h with
    alike := by
      rw [h.keys.pendingMem_readAfter]
      simp only [afterRead, h.db, h.now]
      exact (h.alike.readKV s.db s.now key {}).2
    db := h.db.trans (readAfter_db s key _).symm
    now := h.now.trans (readAfter_now s key _).symm
    versions key' := (h.versions key').touch h.now key
    keys := h.keys.touch key }

/-- The separate command and the transaction execute one entry each. They show the same if and only
if the entry agrees, and then they stay in step. -/
structure Sim.Steps (n : ℕ) (s : Stores) (σ : KeyType → KeyState) (a : Allocated) (st : LoopState) (q : Processor)
    (req : TransRequest) (entry : Entry) (e e' : Event) (s' : Stores) (st' : LoopState)
    (results : List Result) (q' : Processor) : Prop where
  trans : TransStep req {} entry st s e st' (storesAfter s σ entry)
  alone : AloneStep req.isMetaReturned entry q e' s' results q'
  agrees : seen e = seen e' ↔ Agrees s σ a entry
  sim : Agrees s σ a entry → Sim n (storesAfter s σ entry) (stateAfter s σ entry) (allocatedAfter s σ a entry) st' q'

/-- What a removal that agrees does to the numbering. -/
theorem Sim.numbered_removal (h : Sim n s σ a st q) {e : RemoveEntry} (ha : Agrees s σ a (.remove e))
    (hq : q'.stores.mem = ((removalEvent e (q.stores.readKV e.key)).setVersion q.versions.mNextVersion).apply
      (afterRead q.stores e.key).mem) (key : KeyType) :
    OwnVersion (readAfter s e.key (σ e.key)) (allocatedAfter s σ a (.remove e)) q' key
      (stateAfter s σ (.remove e) key) := by
  have hlast : (allocatedAfter s σ a (.remove e)).last key = a.last key := by
    rw [allocatedAfter]
    split_ifs <;> rfl
  have htouched := (h.touch e.key).versions key
  by_cases hk : key = e.key
  · subst hk
    rw [stateAfter, update_self]
    by_cases hh : Hits e (q.stores.readKV e.key)
    · have hfinds := (h.hits_iff ha).mp hh
      cases hσ : σ e.key with
      | clean =>
        rw [hσ] at hfinds htouched
        cases hdata : s.mem.mData e.key with
        | some c =>
          rw [afterRemoval, if_pos ⟨hfinds, by rw [hdata]; rfl⟩]
          trivial
        | none =>
          -- the key is only in RocksDB, and the delete event finds nothing in the cache
          rw [afterRemoval, if_neg (fun h => by simp [hdata] at h)]
          rw [removalEvent_of_hits hh] at hq
          have hnone : (afterRead q.stores e.key).mem.mData e.key = none := by
            rw [htouched.1, readAfter, if_pos rfl]
            refine InMemoryKVStore.readKV_state_self.trans ?_
            rw [hdata]
            rfl
          have hsame : q'.stores.mem = (afterRead q.stores e.key).mem :=
            hq.trans (InMemoryKVStore.deleteKV_of_none hnone _)
          exact ⟨by rw [hsame]; exact htouched.1, by rw [hsame]; exact htouched.2⟩
      | written ttl =>
        rw [hσ] at hfinds
        have hzero : e.version = kInvalidVersion := hfinds
        rw [afterRemoval, if_pos hzero]
        trivial
      | gone own => trivial
    · rw [removalEvent_of_not_hits hh] at hq
      have hstate : afterRemoval s e (σ e.key) = σ e.key := by
        have hmiss := mt (h.hits_iff ha).mpr hh
        cases hσ : σ e.key with
        | clean =>
          rw [hσ] at hmiss
          exact if_neg fun h => hmiss h.1
        | written ttl =>
          rw [hσ] at hmiss
          exact if_neg hmiss
        | gone own => rfl
      rw [hstate]
      exact htouched.of_not_touches hq (by simp [Touches, notFoundEvent, Event.setVersion, Event.effect]) hlast
  · rw [stateAfter, update_of_ne hk]
    exact htouched.of_not_touches hq (not_touches_removalEvent hk) hlast

theorem Sim.steps_read (h : Sim n s σ a st q) (hdb : s.db.Healthy)
    (hstale : isFollowerReadCmd req = false) (e : ReadEntry) :
    ∃ ev ev' s' st' results q', Sim.Steps n s σ a st q req (.read e) ev ev' s' st' results q' := by
  obtain ⟨ev, htrans, hseen⟩ := transStep_read hstale (h.keys.run_readKV e.key)
    (overlayRead_ok_or_notFound hdb st.tempStore e.key)
  obtain ⟨ev', results, q', halone, hseen'⟩ := aloneStep_read (p := q) req.isMetaReturned
    (h.db ▸ hdb) e
  have hagrees : seen ev = seen ev' ↔ Agrees s σ a (.read e) := by
    rw [hseen.seen_eq, hseen'.seen_eq]
    exact h.seenRead_eq_iff e
  refine ⟨ev, ev', _, _, results, q', htrans, halone, hagrees, fun ha => ?_⟩
  have htouched := h.touch e.key
  have hread : isNonRead ev' = false := by
    rcases hseen' with ⟨-, updateTime, udfMeta, rfl⟩ | ⟨-, rfl⟩ <;> rfl
  refine htouched.push (hagrees.mpr ha) htrans.pending halone.pending htrans.events halone.stores ?_ le_rfl ?_
    (h.keys.after_read htrans.fits htrans.events rfl)
  · rw [halone.versions, hread, h.next]
    rfl
  · intro key
    exact (htouched.versions key).of_not_touches (congrArg Stores.mem halone.stores)
      (halone.fits.not_touches_of_read _ key) rfl

theorem Sim.steps_remove (h : Sim n s σ a st q) (hdb : s.db.Healthy) (hleft : a.next + 1 < 2 ^ 64)
    (e : RemoveEntry) :
    ∃ ev ev' s' st' results q', Sim.Steps n s σ a st q req (.remove e) ev ev' s' st' results q' := by
  have htrans := @transStep_remove s _ req {} st e _ _ (h.keys.run_readKV e.key)
    (overlayRead_ok_or_notFound hdb st.tempStore e.key)
  obtain ⟨results, q', halone⟩ := aloneStep_remove (p := q) req.isMetaReturned
    (h.db ▸ hdb) e
  have hagrees : seen (removalEvent e (overlayRead s st.tempStore e.key)) =
      seen (removalEvent e (q.stores.readKV e.key)) ↔ Agrees s σ a (.remove e) := by
    rw [seen_removalEvent, seen_removalEvent]
    exact h.seenRemoval_eq_iff e
  refine ⟨_, _, _, _, results, q', htrans, halone, hagrees, fun ha => ?_⟩
  have htouched := h.touch e.key
  refine htouched.push (hagrees.mpr ha) htrans.pending halone.pending htrans.events halone.stores ?_ ?_ ?_
    (h.keys.after_remove htrans.events rfl)
  · rw [halone.versions, h.next, allocatedAfter]
    by_cases hh : Hits e (q.stores.readKV e.key)
    · rw [removalEvent_of_hits hh, if_pos ((h.hits_iff ha).mp hh)]
      exact VersionStore.successor_of_ne (by omega) (by omega)
    · rw [removalEvent_of_not_hits hh, if_neg (mt (h.hits_iff ha).mpr hh)]
      rfl
  · rw [allocatedAfter]
    split_ifs
    · exact Nat.le_succ _
    · exact le_rfl
  · exact h.numbered_removal ha (congrArg Stores.mem halone.stores)

theorem Sim.steps_write (h : Sim n s σ a st q) (hdb : s.db.Healthy) (hleft : a.next + 1 < 2 ^ 64)
    {e : WriteEntry} {entries : List Entry} (ht : Timely s entries) (he : Entry.write e ∈ entries) :
    ∃ ev ev' s' st' results q', Sim.Steps n s σ a st q req (.write e) ev ev' s' st' results q' := by
  obtain ⟨st', htrans, htemp⟩ := transStep_write req st hdb (admits_of_empty e)
  obtain ⟨results, q', halone⟩ := aloneStep_write (p := q) req.isMetaReturned
    (h.db ▸ hdb) e
  have hagrees : seen (.write (putEvent s.now (s.readMeta e.key) e)) =
      seen (.write (putEvent q.stores.now (q.stores.readMeta e.key) e)) ↔ Agrees s σ a (.write e) := by
    rw [← h.putEvent_eq_iff e]
    exact ⟨eq_of_seen_write htrans.pending halone.pending, fun heq => by rw [heq]⟩
  refine ⟨_, _, _, st', results, q', htrans, halone, hagrees, fun ha => ?_⟩
  refine h.push (hagrees.mpr ha) htrans.pending halone.pending htrans.events halone.stores ?_ (Nat.le_succ _) ?_
    (h.keys.after_write hdb ht he htrans.events htemp)
  · rw [halone.versions, h.next]
    exact VersionStore.successor_of_ne (by omega) (by omega)
  · intro key
    have hmem : q'.stores.mem = ((Event.write (putEvent q.stores.now (q.stores.readMeta e.key) e)).setVersion
        q.versions.mNextVersion).apply q.stores.mem := congrArg Stores.mem halone.stores
    by_cases hk : key = e.key
    · subst hk
      rw [stateAfter, update_self]
      intro c hc
      have hcell : q'.stores.mem.mData e.key = some _ := (congrFun (congrArg InMemoryKVStore.mData hmem) e.key).trans
        (InMemoryKVStore.mData_apply (r := { (putEvent q.stores.now (q.stores.readMeta e.key) e).record with
          version := q.versions.mNextVersion }) rfl)
      rw [hcell] at hc
      cases hc
      exact h.next.trans (update_self e.key a.next a.last).symm
    · rw [stateAfter, update_of_ne hk]
      refine (h.versions key).of_not_touches hmem ?_ (update_of_ne hk ..)
      rintro ⟨r, heffect⟩
      cases heffect
      exact hk rfl

end Steps

section Runs

variable {n : ℕ} {s : Stores} {σ : KeyType → KeyState} {a : Allocated} {st : LoopState} {q : Processor}
  {req : TransRequest} {entries : List Entry}

variable {entry : Entry}

theorem aloneStep_total (isMetaReturned : Bool) {p : Processor} (hdb : p.stores.db.Healthy)
    (hset : entry ≠ .unset) : ∃ e s results q, AloneStep isMetaReturned entry p e s results q := by
  cases entry with
  | write e =>
    obtain ⟨results, q, hstep⟩ := aloneStep_write isMetaReturned hdb e
    exact ⟨_, _, results, q, hstep⟩
  | read e =>
    obtain ⟨event, results, q, hstep, -⟩ := aloneStep_read isMetaReturned hdb e
    exact ⟨event, _, results, q, hstep⟩
  | remove e =>
    obtain ⟨results, q, hstep⟩ := aloneStep_remove isMetaReturned hdb e
    exact ⟨_, _, results, q, hstep⟩
  | unset => exact absurd rfl hset

/-- The loop over the entries that does not fail. -/
structure TransRun (req : TransRequest) (entries : List Entry) (st : LoopState) (s : Stores)
    (events : List Event) (st' : LoopState) (s' : Stores) : Prop where
  run : (execEntries req {} s.now entries st).run Stores.answer s = some (st', s')
  fits : List.Forall₂ Fits entries events
  pending : ∀ e ∈ events, Pending e
  events : st'.events = st.events ++ events
  status : st.status.isOK ∨ st.status.isNotFound → st'.status.isOK ∨ st'.status.isNotFound

/-- The separate commands one after the other, each with one event that its result shows. -/
structure AloneRun (isMetaReturned : Bool) (entries : List Entry) (p : Processor) (events : List Event)
    (results : List Result) (q : Processor) : Prop where
  run : runAlone isMetaReturned entries p = some (events, results, q)
  results : results.map shown = (events.map seen).map shownFor

theorem TransRun.cons {e : Event} {events : List Event} {st₁ st₂ : LoopState} {s₁ s₂ : Stores}
    (h : TransStep req {} entry st s e st₁ s₁) (hgo : st.stop = false) (hnow : s₁.now = s.now)
    (hs : TransRun req entries st₁ s₁ events st₂ s₂) : TransRun req (entry :: entries) st s (e :: events) st₂ s₂ where
  run := by
    refine Program.run_bind_eq_some.mpr ⟨st₁, s₁, h.run, ?_⟩
    rw [h.stop, hgo, ← hnow]
    exact hs.run
  fits := .cons h.fits hs.fits
  pending := forall_mem_cons.mpr ⟨h.pending, hs.pending⟩
  events := by rw [hs.events, h.events, append_assoc, singleton_append]
  status _ := hs.status h.status

theorem AloneRun.cons {isMetaReturned : Bool} {e : Event} {events : List Event} {results results' : List Result}
    {p q₁ q₂ : Processor} (h : AloneStep isMetaReturned entry p e s results q₁)
    (hs : AloneRun isMetaReturned entries q₁ events results' q₂) :
    AloneRun isMetaReturned (entry :: entries) p (e :: events) (results ++ results') q₂ where
  run := by simp [runAlone, h.run, hs.run]
  results := by simp [h.results, hs.results]

theorem transRun_total (st : LoopState) (hstale : isFollowerReadCmd req = false)
    (hset : ∀ entry ∈ entries, entry ≠ .unset)
    (hdb : s.db.Healthy) (hgo : st.stop = false) :
    ∃ events st' s', TransRun req entries st s events st' s' := by
  induction entries generalizing st s with
  | nil => exact ⟨[], st, s, rfl, .nil, by simp, by simp, id⟩
  | cons entry entries ih =>
    obtain ⟨e, st₁, s₁, hstep, hdb₁, hnow⟩ := transStep_total entry st hdb
      (fun e _ => admits_of_empty e) hstale
      (hset entry mem_cons_self)
    obtain ⟨events, st', s', hrun⟩ := ih st₁ (fun f hf => hset f (mem_cons_of_mem _ hf))
      (hdb₁ ▸ hdb) (hstep.stop.trans hgo)
    exact ⟨_, st', s', .cons hstep hgo hnow hrun⟩

theorem aloneRun_total (isMetaReturned : Bool) {p : Processor}
    (hset : ∀ entry ∈ entries, entry ≠ .unset) (hdb : p.stores.db.Healthy) :
    ∃ events results q, AloneRun isMetaReturned entries p events results q := by
  induction entries generalizing p with
  | nil => exact ⟨[], [], p, rfl, rfl⟩
  | cons entry entries ih =>
    obtain ⟨e, s, results, q, hstep⟩ := aloneStep_total isMetaReturned hdb
      (hset entry mem_cons_self)
    obtain ⟨events, results', q', hrun⟩ := ih (fun f hf => hset f (mem_cons_of_mem _ hf))
      (hstep.db_eq ▸ hdb)
    exact ⟨_, _, q', .cons hstep hrun⟩

theorem Sim.steps (h : Sim n s σ a st q) (hstale : isFollowerReadCmd req = false)
    (hdb : s.db.Healthy) (htime : Timely s entries) (hleft : a.next + 1 < 2 ^ 64) (hentry : entry ∈ entries)
    (hset : entry ≠ .unset) :
    ∃ ev ev' s' st' results q', Sim.Steps n s σ a st q req entry ev ev' s' st' results q' := by
  cases entry with
  | write e => exact h.steps_write hdb hleft htime hentry
  | read e => exact h.steps_read hdb hstale e
  | remove e => exact h.steps_remove hdb hleft e
  | unset => exact absurd rfl hset

theorem next_allocatedAfter (s : Stores) (σ : KeyType → KeyState) (a : Allocated) (entry : Entry) :
    (allocatedAfter s σ a entry).next ≤ a.next + 1 := by
  unfold allocatedAfter
  split
  · exact le_rfl
  · split_ifs
    · exact le_rfl
    · exact Nat.le_succ _
  · exact Nat.le_succ _

/-- The whole list of entries. As long as they agree both sides stay in step; at the first entry that
does not agree they show something different. -/
theorem Sim.run {all : List Entry} (h : Sim n s σ a st q) (hgo : st.stop = false)
    (hstale : isFollowerReadCmd req = false) (hdb : s.db.Healthy)
    (htime : Timely s all) (hleft : a.next + entries.length < 2 ^ 64) (hsub : entries ⊆ all)
    (hset : ∀ entry ∈ all, entry ≠ .unset) :
    ∃ events st' s' events' results q', TransRun req entries st s events st' s' ∧
      AloneRun req.isMetaReturned entries q events' results q' ∧
      (events.map seen = events'.map seen ↔ Agreeing s σ a entries) ∧
      (Agreeing s σ a entries → ∃ σ' a', Sim n s' σ' a' st' q') := by
  induction entries generalizing s σ a st q with
  | nil =>
    exact ⟨[], st, s, [], [], q, ⟨rfl, .nil, by simp, by simp, id⟩, ⟨rfl, rfl⟩,
      by simp [Agreeing], fun _ => ⟨σ, a, h⟩⟩
  | cons entry entries ih =>
    obtain ⟨hentry, hrest⟩ := cons_subset.mp hsub
    rw [length_cons] at hleft
    obtain ⟨ev, ev', t, st₁, results₁, q₁, hsteps⟩ :=
      h.steps hstale hdb htime (by omega) hentry (hset entry hentry)
    have hdb₁ : (storesAfter s σ entry).db.Healthy := by
      rw [storesAfter_db]
      exact hdb
    have hgo₁ : st₁.stop = false := hsteps.trans.stop.trans hgo
    by_cases ha : Agrees s σ a entry
    · have hnext := next_allocatedAfter s σ a entry
      obtain ⟨events, st₂, s₂, events', results₂, q₂, htrans, halone, hiff, hsim⟩ :=
        ih (hsteps.sim ha) hgo₁ hdb₁ (htime.storesAfter σ entry) (by omega) hrest
      refine ⟨ev :: events, st₂, s₂, ev' :: events', results₁ ++ results₂, q₂,
        .cons hsteps.trans hgo (storesAfter_now σ entry) htrans, .cons hsteps.alone halone, ?_, ?_⟩
      · simp [Agreeing, ha, hsteps.agrees.mpr ha, hiff]
      · exact fun hall => hsim hall.2
    · have hset' : ∀ f ∈ entries, f ≠ .unset := fun f hf => hset f (hrest hf)
      obtain ⟨events, st₂, s₂, htrans⟩ := transRun_total st₁ hstale hset' hdb₁ hgo₁
      have hdbq : q₁.stores.db.Healthy := by
        rw [hsteps.alone.db_eq, h.db]
        exact hdb
      obtain ⟨events', results₂, q₂, halone⟩ := aloneRun_total
        req.isMetaReturned hset' hdbq
      refine ⟨ev :: events, st₂, s₂, ev' :: events', results₁ ++ results₂, q₂,
        .cons hsteps.trans hgo (storesAfter_now σ entry) htrans, .cons hsteps.alone halone, ?_, ?_⟩
      · simp [Agreeing, ha, mt hsteps.agrees.mp ha]
      · exact fun hall => absurd hall.1 ha

end Runs

section Respond

variable {p : Processor} {req : TransRequest}

variable {events : List Event}

theorem getTargetKeys_of_set (hset : ∀ entry ∈ req.entries, entry ≠ .unset) :
    ∃ keys, getTargetKeys req = some keys := by
  have hmap : ∀ entries : List Entry, (∀ entry ∈ entries, entry ≠ .unset) →
      ∃ keys, entries.mapM entryKey = some keys := by
    intro entries h
    induction entries with
    | nil => exact ⟨[], rfl⟩
    | cons entry entries ih =>
      obtain ⟨keys, hkeys⟩ := ih fun f hf => h f (mem_cons_of_mem _ hf)
      obtain ⟨key, hkey⟩ : ∃ key, entryKey entry = some key := by
        cases entry with
        | unset => exact absurd rfl (h _ mem_cons_self)
        | write e => exact ⟨_, rfl⟩
        | read e => exact ⟨_, rfl⟩
        | remove e => exact ⟨_, rfl⟩
      exact ⟨key :: keys, by simp [mapM_cons, hkey, hkeys]⟩
  obtain ⟨keys, hkeys⟩ := hmap req.entries hset
  exact ⟨_, by simp [getTargetKeys, hkeys]; rfl⟩

end Respond

/-- A key in the cache, and a transaction that removes it before something else. -/
def cached : Processor where
  stores := { mem := InMemoryKVStore.writeKV {} "k" "v" 1 NOT_UPDATED DEFAULT_UDFMETA, now := 5 }
  versions := { mNextVersion := 2, mMaxVersion := 1 }

end Goblin.Execution
