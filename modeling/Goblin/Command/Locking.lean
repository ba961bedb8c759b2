import Goblin.Command.Trans

/-! Commands read and write only the keys they have locked. -/
namespace Goblin.Model

open Store

def StoreOp.key? : StoreOp → Option KeyType
  | .readKV key _ => some key
  | .readKVFromProxy key _ => some key
  | .readMeta key => some key
  | .readMetaFromProxy key => some key
  | .secondsSinceEpoch => none

/-- The operation concerns no key outside the list. -/
def StoreOp.On (keys : List KeyType) (o : StoreOp) : Prop :=
  ∀ key, o.key? = some key → key ∈ keys

/-- The event writes or deletes no key outside the list. -/
def Event.On (keys : List KeyType) (e : Event) : Prop :=
  ∀ key v, e.effect = some (key, v) → key ∈ keys

/-- The program stays on the keys, and its result meets `Q` whatever the store answers. -/
abbrev StaysOn {α : Type} (keys : List KeyType) (Q : α → Prop) (p : StoreProg α) : Prop :=
  p.Obeys (StoreOp.On keys) (fun _ _ => True) Q

section Operations

variable {keys : List KeyType} {key : KeyType}

theorem staysOn_readKV (hk : key ∈ keys) (out : ReadOut) :
    StaysOn keys (fun _ => True) (readKV key out) :=
  ⟨by simpa [StoreOp.On, StoreOp.key?] using hk, fun _ _ => trivial⟩

theorem staysOn_readMeta (hk : key ∈ keys) : StaysOn keys (fun _ => True) (readMeta key) :=
  ⟨by simpa [StoreOp.On, StoreOp.key?] using hk, fun _ _ => trivial⟩

theorem staysOn_readMetaFrom (fromProxy : Bool) (hk : key ∈ keys) :
    StaysOn keys (fun _ => True) (readMetaFrom fromProxy key) := by
  cases fromProxy <;> exact ⟨by simpa [StoreOp.On, StoreOp.key?] using hk, fun _ _ => trivial⟩

theorem staysOn_secondsSinceEpoch : StaysOn keys (fun _ => True) secondsSinceEpoch :=
  ⟨by simp [StoreOp.On, StoreOp.key?], fun _ _ => trivial⟩

theorem staysOn_fixTTL (hk : key ∈ keys) (enableTTL : Bool) (ttl : ℕ) :
    StaysOn keys (fun _ => True) (fixTTL key enableTTL ttl) := by
  unfold fixTTL
  split_ifs
  · refine (staysOn_readMeta hk).bind fun ⟨s, m⟩ _ => staysOn_secondsSinceEpoch.bind fun now _ => ?_
    split_ifs <;> trivial
  · trivial

/-- A read event, whatever it found. -/
def Event.IsRead (e : Event) : Prop := ∃ r, e = .read r

theorem isRead_notFoundEvent (key : KeyType) (out : ReadOut) : (notFoundEvent key out).IsRead :=
  ⟨_, rfl⟩

theorem Event.IsRead.on {e : Event} (he : e.IsRead) : e.On keys := by
  obtain ⟨r, rfl⟩ := he
  intro k v hv
  cases hv

theorem staysOn_newReadEvent (fromProxy isMetaReturned : Bool) (hk : key ∈ keys) (out : ReadOut) :
    StaysOn keys Event.IsRead (newReadEvent fromProxy isMetaReturned key out) := by
  have hfound (updateTime : ℕ) (udfMeta : UserDefinedMeta) :
      (foundEvent key out updateTime udfMeta).IsRead := ⟨_, rfl⟩
  unfold newReadEvent
  split_ifs
  · refine (staysOn_readMetaFrom fromProxy hk).bind fun ⟨s, m⟩ _ => ?_
    dsimp only
    split
    · split_ifs <;> exact hfound _ _
    · exact hfound _ _
  · exact hfound _ _

theorem Event.on_write {w : WriteEvent} (hk : w.mKey ∈ keys) : (Event.write w).On keys := by
  intro k v hv
  simp only [Event.effect] at hv
  split_ifs at hv
  cases hv
  exact hk

theorem on_removeEvent (e : RemoveEntry) (hk : e.key ∈ keys) (out : ReadOut) (value : ValueType) :
    (removeEvent e out value).On keys := by
  unfold removeEvent
  split_ifs
  · exact (isRead_notFoundEvent _ _).on
  · intro k v hv
    cases hv
    exact hk

end Operations

namespace KVTransCommand

variable {keys : List KeyType}

/-- The loop state grows by events on the keys, and the overlay changes on those keys only. -/
structure Grows (keys : List KeyType) (st st' : LoopState) : Prop where
  events : ∃ es : List Event, st'.events = st.events ++ es ∧ ∀ e ∈ es, e.On keys
  overlay : ∀ k, k ∉ keys → st'.tempStore.mData k = st.tempStore.mData k ∧
    st'.tempStore.mDeletedData k = st.tempStore.mDeletedData k

theorem Grows.refl (st : LoopState) : Grows keys st st :=
  ⟨⟨[], by simp, by simp⟩, fun _ _ => ⟨rfl, rfl⟩⟩

theorem Grows.trans {st st' st'' : LoopState} (h : Grows keys st st') (h' : Grows keys st' st'') :
    Grows keys st st'' := by
  obtain ⟨es, hes, hon⟩ := h.events
  obtain ⟨fs, hfs, hon'⟩ := h'.events
  refine ⟨⟨es ++ fs, by rw [hfs, hes, List.append_assoc], fun e he => ?_⟩, fun k hk => ?_⟩
  · rcases List.mem_append.mp he with he | he
    · exact hon e he
    · exact hon' e he
  · exact ⟨(h'.overlay k hk).1.trans (h.overlay k hk).1, (h'.overlay k hk).2.trans (h.overlay k hk).2⟩

theorem grows_push {st : LoopState} {s : Status} {e : Event} (he : e.On keys) :
    Grows keys st (st.push s e) :=
  ⟨⟨[e], rfl, by simpa using he⟩, fun _ _ => ⟨rfl, rfl⟩⟩

theorem grows_fail (st : LoopState) (s : Status) : Grows keys st (st.fail s) :=
  ⟨⟨[], by simp [LoopState.fail], by simp⟩, fun _ _ => ⟨rfl, rfl⟩⟩

theorem staysOn_temporalReadKV (st : LoopState) {key : KeyType} (hk : key ∈ keys) (out : ReadOut) :
    StaysOn keys (fun r => Grows keys st { st with tempStore := r.2 }) (st.tempStore.readKV key out) := by
  unfold TemporalKVStore.readKV
  split
  · split_ifs
    · exact Grows.refl st
    · exact (staysOn_readKV hk out).bind fun _ _ => Grows.refl st
  · refine staysOn_secondsSinceEpoch.bind fun now _ => ?_
    split_ifs
    · refine ⟨(Grows.refl st).events, fun k hne => ?_⟩
      have hne' : k ≠ key := fun h => hne (h ▸ hk)
      simp [hne']
    · exact Grows.refl st

theorem staysOn_tempReadKV (fromProxy : Bool) (st : LoopState) {key : KeyType} (hk : key ∈ keys) :
    StaysOn keys (fun _ => True) (tempReadKV fromProxy st.tempStore key) := by
  unfold tempReadKV
  split_ifs
  · exact staysOn_readKV hk {}
  · exact (staysOn_temporalReadKV st hk {}).bind fun _ _ => trivial

theorem staysOn_putEntry (curTime : ℕ) (st : LoopState) (e : WriteEntry) (enableTTL : Bool) (ttl : ℕ)
    (hk : e.key ∈ keys) : StaysOn keys (Grows keys st) (putEntry curTime st e enableTTL ttl) := by
  refine staysOn_secondsSinceEpoch.bind fun _ _ => ⟨⟨[_], rfl, by simpa using Event.on_write hk⟩, ?_⟩
  intro k hne
  have hne' : k ≠ e.key := fun h => hne (h ▸ hk)
  cases enableTTL <;>
    simp [LoopState.push, TemporalKVStore.writeKV, TemporalKVStore.writeTTLKV, hne']

theorem staysOn_execEntry (req : TransRequest) (cond : CondState) (curTime : ℕ) (st : LoopState)
    (entry : Entry) (hk : ∀ key, entryKey entry = some key → key ∈ keys) :
    StaysOn keys (Grows keys st) (execEntry req cond curTime st entry) := by
  cases entry with
  | write e =>
    have hkey : e.key ∈ keys := hk e.key rfl
    change StaysOn keys _ (writeEntry cond curTime st e)
    unfold writeEntry
    by_cases hig : e.key ∈ cond.ignoredUdfUintKeys
    · rw [if_pos hig]
      exact grows_push (Event.on_write hkey)
    · rw [if_neg hig]
      refine (staysOn_fixTTL hkey e.enableTTL _).bind fun r _ => ?_
      cases r with
      | error s => exact grows_fail st s
      | ok w =>
        dsimp only
        split
        · exact staysOn_putEntry curTime st e _ _ hkey
        · split
          · trivial
          · exact grows_fail st _
          · exact staysOn_putEntry curTime st e _ _ hkey
  | read e =>
    have hkey : e.key ∈ keys := hk e.key rfl
    refine (staysOn_tempReadKV _ st hkey).bind fun ⟨s, out⟩ _ => ?_
    dsimp only
    split_ifs
    · exact grows_push (isRead_notFoundEvent _ _).on
    · exact (staysOn_newReadEvent _ _ hkey out).bind fun v hv => grows_push hv.on
    · exact grows_fail st s
  | remove e =>
    have hkey : e.key ∈ keys := hk e.key rfl
    refine (staysOn_temporalReadKV st hkey {}).bind fun ⟨⟨s, out⟩, t⟩ ht => ?_
    dsimp only
    split_ifs
    · exact ht.trans (grows_push (isRead_notFoundEvent e.key out).on)
    · exact ht.trans (grows_push (on_removeEvent e hkey out _))
    · exact ⟨ht.events, ht.overlay⟩
  | unset => exact grows_fail st _

theorem staysOn_execEntries (req : TransRequest) (cond : CondState) (curTime : ℕ)
    (entries : List Entry) (st : LoopState)
    (hk : ∀ entry ∈ entries, ∀ key, entryKey entry = some key → key ∈ keys) :
    StaysOn keys (Grows keys st) (execEntries req cond curTime entries st) := by
  induction entries generalizing st with
  | nil => exact Grows.refl st
  | cons entry entries ih =>
    refine (staysOn_execEntry req cond curTime st entry (hk entry List.mem_cons_self)).bind
      fun st' hst' => ?_
    split_ifs
    · exact hst'
    · exact (ih st' fun entry' h => hk entry' (List.mem_cons_of_mem _ h)).mono (fun _ h => h)
        (fun _ _ _ _ => trivial) fun st'' hst'' => hst'.trans hst''

end KVTransCommand

namespace KVTransCommand

variable {req : TransRequest} {keys : List KeyType}

end KVTransCommand

end Goblin.Model
