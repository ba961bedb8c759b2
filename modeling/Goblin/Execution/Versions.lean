import Goblin.Command.PrecondExact
import Goblin.Execution.Alone

/-! The versions that a transaction reports against those under which its values are stored. -/
namespace Goblin.Execution

open Model Store Lib KVTransCommand List Option Function

/-- The last put of the key that is not ignored: what the overlay holds after the entries. -/
def ownPut (ignored : List KeyType) (key : KeyType) (entries : List Entry) : Option WriteEntry :=
  (entries.filterMap fun
    | .write e => if e.key = key ∧ key ∉ ignored then some e else none
    | _ => none).getLast?

/-- The removal finds its key, under the version it asks for; the overlay does not tell of the removals before it, and
has no version for a put. -/
def RemovesKey (s : Stores) (ignored : List KeyType) (before : List Entry) (d : RemoveEntry) : Prop :=
  match ownPut ignored d.key before with
  | some _ => d.version = kInvalidVersion
  | none => Hits d (s.readKV d.key)

instance (s : Stores) (ignored : List KeyType) (before : List Entry) (d : RemoveEntry) :
    Decidable (RemovesKey s ignored before d) := by
  unfold RemovesKey
  split <;> infer_instance

/-- What an entry makes of the key, if anything: the value it puts, or none. -/
def changeBy (s : Stores) (ignored : List KeyType) (key : KeyType) (before : List Entry) :
    Entry → Option (Option ValueType)
  | .write e => if e.key = key ∧ key ∉ ignored then some (some e.value) else none
  | .remove d => if d.key = key ∧ RemovesKey s ignored before d then some none else none
  | _ => none

/-- What the last entry that changes the key makes of it. -/
def lastChange (s : Stores) (ignored : List KeyType) (key : KeyType) (before : List Entry) :
    List Entry → Option (Option ValueType)
  | [] => none
  | entry :: entries =>
    (lastChange s ignored key (before ++ [entry]) entries).or (changeBy s ignored key before entry)

/-- The key, the value and the version that a result vouches for. -/
def reported : Entry → Result → Option (KeyType × ValueType × ℕ)
  | .write e, .write .OK version => some (e.key, e.value, version)
  | .read e, .read .OK value version _ _ => some (e.key, value, version)
  | _, _ => none

/-- Every stored version was allocated before `n`. -/
structure Fresh (s : Stores) (n : ℕ) : Prop where
  mem : ∀ key c, s.mem.mData key = some c → 0 < c.version ∧ c.version < n
  db : ∀ key r, s.db.mRocksDB key = some r → 0 < r.version ∧ r.version < n

/-- What a read through the overlay answers. -/
def ReadsBack (s : Stores) (key : KeyType) (r : Status × ReadOut) : Option WriteEntry → Prop
  | some e => r.1.isOK ∧ r.2.value = e.value ∧ r.2.version = kInvalidVersion
  | none => r = s.readKV key

/-- What the events make of a key, against what the entries make of it. -/
def Makes (now : ℕ) : Option (Option ValueType) → Option (Option Record) → Prop
  | none, made => made = none
  | some none, made => made = some none
  | some (some value), made => ∃ r, made = some (some r) ∧ r.value = value ∧ isTimeOut now r.deadline r.ttl = false

/-- The event of a put names its key. -/
def WritesKey (entry : Entry) (v : Event) : Prop := ∀ e, entry = .write e → ∃ w, v = .write w ∧ w.mKey = e.key

/-- The event of an entry that comes after the entries `before`. -/
structure LeavesFor (s : Stores) (ignored : List KeyType) (before : List Entry) (entry : Entry) (v : Event) :
    Prop where
  writes : WritesKey entry v
  pending : Pending v
  makes : ∀ key, Makes s.now (changeBy s ignored key before entry) (sets Event.effect key [v]).getLast?
  reads : ∀ e, entry = .read e → ∃ r, IsReadEvent e.key r v ∧ ReadsBack s e.key r (ownPut ignored e.key before)

/-- Every entry has left its event. -/
inductive Aligned (s : Stores) (ignored : List KeyType) : List Entry → List Entry → List Event → Prop
  | nil (before : List Entry) : Aligned s ignored before [] []
  | cons {before entries : List Entry} {entry : Entry} {v : Event} {vs : List Event}
      (head : LeavesFor s ignored before entry v) (tail : Aligned s ignored (before ++ [entry]) entries vs) :
      Aligned s ignored before (entry :: entries) (v :: vs)

section Aligned

variable {s : Stores} {ignored : List KeyType} {key : KeyType} {before entries : List Entry} {events : List Event}

theorem Aligned.length_eq (h : Aligned s ignored before entries events) : events.length = entries.length := by
  induction h with
  | nil => rfl
  | cons _ _ ih => exact congrArg (· + 1) ih

theorem Aligned.writes (h : Aligned s ignored before entries events) : List.Forall₂ WritesKey entries events := by
  induction h with
  | nil => exact .nil
  | cons head _ ih => exact .cons head.writes ih

theorem Aligned.pending (h : Aligned s ignored before entries events) : ∀ v ∈ events, Pending v := by
  induction h with
  | nil => exact nofun
  | cons head _ ih => exact forall_mem_cons.mpr ⟨head.pending, ih⟩

theorem Makes.or {now : ℕ} {a b : Option (Option ValueType)} {x y : Option (Option Record)} (h : Makes now a x)
    (h' : Makes now b y) : Makes now (a.or b) (x.or y) := by
  match a with
  | none =>
    obtain rfl : x = none := h
    simpa using h'
  | some none =>
    obtain rfl : x = some none := h
    rfl
  | some (some value) =>
    obtain ⟨r, rfl, hr⟩ := h
    exact ⟨r, rfl, hr⟩

theorem Aligned.makes (h : Aligned s ignored before entries events) (key : KeyType) :
    Makes s.now (lastChange s ignored key before entries) (sets Event.effect key events).getLast? := by
  induction h with
  | nil => rfl
  | @cons before entries entry v vs head tail ih =>
    have hsets : sets Event.effect key (v :: vs) = sets Event.effect key [v] ++ sets Event.effect key vs :=
      sets_append Event.effect key [v] vs
    rw [hsets, getLast?_append]
    exact ih.or (head.makes key)

theorem Aligned.split {entry : Entry} {after : List Entry}
    (h : Aligned s ignored before (entries ++ entry :: after) events) :
    ∃ es v fs, events = es ++ v :: fs ∧ Aligned s ignored before entries es ∧
      LeavesFor s ignored (before ++ entries) entry v := by
  induction entries generalizing before events with
  | nil =>
    cases h with
    | @cons _ _ _ v vs head tail => exact ⟨[], v, vs, rfl, .nil before, by simpa using head⟩
  | cons first entries ih =>
    cases h with
    | @cons _ _ _ u us head tail =>
      obtain ⟨es, v, fs, rfl, hes, hv⟩ := ih tail
      exact ⟨u :: es, v, fs, rfl, .cons head hes, by simpa using hv⟩

end Aligned

section Steps

variable {s : Stores} {ignored : List KeyType} {key : KeyType} {before : List Entry} {t t' : TemporalKVStore}
  {cs : List Call}

variable {req : TransRequest} {cond : CondState} {st st' : LoopState} {entry : Entry}

end Steps

section Responses

variable {isMetaReturned : Bool} {entries : List Entry} {events : List Event} {r r' : ResponseState}

end Responses

section Outcome

variable {s t : Stores} {n : ℕ} {key : KeyType}

theorem Fresh.readKV (h : Fresh s n) {key : KeyType} (hok : (s.readKV key).1.isOK) :
    0 < (s.readKV key).2.version ∧ (s.readKV key).2.version < n := by
  unfold Stores.readKV InMemoryKVStore.readKV RocksDBKVStore.readKV at *
  cases hm : s.mem.mData key with
  | some c =>
    cases ht : isTimeOut s.now c.deadline c.ttl with
    | true => simp [hm, ht] at hok
    | false => simpa [hm, ht] using h.mem key c hm
  | none =>
    cases hd : s.mem.mDeletedData key with
    | some v => simp [hm, hd] at hok
    | none =>
      cases he : s.db.mGetError key with
      | some msg => simp [hm, hd, he] at hok
      | none =>
        cases hr : s.db.mRocksDB key with
        | none => simp [hm, hd, he, hr] at hok
        | some r =>
          cases ht : isTimeOut s.now r.deadline r.ttl with
          | true => simp [hm, hd, he, hr, ht] at hok
          | false => simpa [hm, hd, he, hr, ht] using h.db key r hr

variable {events : List Event} {c : Option (Option ValueType)}

end Outcome

section Executed

variable {p p' : Processor} {req : TransRequest} {out : Outcome} {t : Stores} {events : List Event} {v : ℕ}
  {before after : List Entry} {entry : Entry} {result : Result} {key : KeyType} {value : ValueType} {version : ℕ}

end Executed

end Goblin.Execution
