import Goblin.Model.Event

/-! The messages in which events are written to the log, and what is left of an event that was read back
from it. -/
namespace Goblin.Model

open List

namespace Proto

structure WriteEvent where
  key : KeyType := ""
  value : ValueType := ""
  version : ℕ := 0
  enableTTL : Bool := false
  ttl : ℕ := 0
  deadline : ℕ := 0
  updateTime : ℕ := 0
  isnoop : Bool := false
  udfMeta : Option UserDefinedMeta := none
  deriving DecidableEq, Repr

structure DeleteEvent where
  key : KeyType := ""
  deletedValue : ValueType := ""
  deletedVersion : ℕ := 0
  version : ℕ := 0
  deriving DecidableEq, Repr

/-- A message whose `value` is one of several, or not set. -/
inductive Event
  | writeEvent (e : WriteEvent)
  | deleteEvent (e : DeleteEvent)
  | appendEvent
  | notSet
  deriving DecidableEq, Repr

/-- `mutable_udfmeta()->add_uintfield(val)`. -/
def addUintField (udfMeta : Option UserDefinedMeta) (val : ℕ) : Option UserDefinedMeta :=
  some { udfMeta.getD {} with uintField := (udfMeta.getD {}).uintField ++ [val] }

/-- `mutable_udfmeta()->add_strfield(str)`. -/
def addStrField (udfMeta : Option UserDefinedMeta) (str : String) : Option UserDefinedMeta :=
  some { udfMeta.getD {} with strField := (udfMeta.getD {}).strField ++ [str] }

/-- The version of the first event; `none` where an assertion fails. -/
def getVersionFromBundle (bundle : List Event) : Option ℕ :=
  bundle.head?.bind fun
    | .writeEvent e => some e.version
    | .deleteEvent e => some e.version
    | .appendEvent | .notSet => none

end Proto

def WriteEvent.toProtoEvent (e : WriteEvent) : Proto.WriteEvent where
  key := e.mKey
  value := e.mValue
  version := e.mVersion
  enableTTL := e.mEnableTTL
  ttl := e.mTTL
  deadline := e.mDeadline
  updateTime := e.mUpdateTime
  isnoop := e.mIsNoOp
  udfMeta := e.mUdfMeta.strField.foldl Proto.addStrField (e.mUdfMeta.uintField.foldl Proto.addUintField none)

def WriteEvent.ofProto (e : Proto.WriteEvent) : WriteEvent where
  mKey := e.key
  mValue := e.value
  mVersion := e.version
  mEnableTTL := e.enableTTL
  mTTL := e.ttl
  mDeadline := e.deadline
  mUpdateTime := e.updateTime
  mUdfMeta := e.udfMeta.getD {}
  mIsNoOp := e.isnoop

/-- The deleted value is not set. -/
def DeleteEvent.toProtoEvent (e : DeleteEvent) : Proto.DeleteEvent where
  key := e.mKey
  deletedVersion := e.mDeletedVersion
  version := e.mVersion

def DeleteEvent.ofProto (e : Proto.DeleteEvent) : DeleteEvent where
  mKey := e.key
  mDeletedValue := e.deletedValue
  mDeletedVersion := e.deletedVersion
  mVersion := e.version

namespace Event

/-- A read has no message. -/
def toProtoEvent : Event → Option Proto.Event
  | .read _ => none
  | .write e => some (.writeEvent e.toProtoEvent)
  | .delete e => some (.deleteEvent e.toProtoEvent)
  | .importKV e => some (.writeEvent e.mWriteEvent.toProtoEvent)

def ofProto : Proto.Event → Option Event
  | .writeEvent e => some (.write (.ofProto e))
  | .deleteEvent e => some (.delete (.ofProto e))
  | .appendEvent | .notSet => none

def toBundle (events : List Event) : Option (List Proto.Event) := events.mapM toProtoEvent

def fromBundle (bundle : List Proto.Event) : Option (List Event) := bundle.mapM ofProto

def isWriteOrDelete : Event → Bool
  | .write _ | .delete _ => true
  | _ => false

/-- What the log keeps of an event. -/
def logged : Event → Event
  | .delete e => .delete { e with mDeletedValue := "" }
  | e => e

end Event

section RoundTrip

theorem Proto.foldl_addUintField (vals : List ℕ) (m : Option UserDefinedMeta) :
    (vals.foldl addUintField m).getD {} = { m.getD {} with uintField := (m.getD {}).uintField ++ vals } := by
  induction vals generalizing m with
  | nil => simp
  | cons val vals ih =>
    rw [foldl_cons, ih]
    simp [addUintField]

theorem Proto.foldl_addStrField (strs : List String) (m : Option UserDefinedMeta) :
    (strs.foldl addStrField m).getD {} = { m.getD {} with strField := (m.getD {}).strField ++ strs } := by
  induction strs generalizing m with
  | nil => simp
  | cons str strs ih =>
    rw [foldl_cons, ih]
    simp [addStrField]

@[simp] theorem WriteEvent.ofProto_toProtoEvent (e : WriteEvent) : ofProto e.toProtoEvent = e := by
  have hmeta : (e.mUdfMeta.strField.foldl Proto.addStrField
      (e.mUdfMeta.uintField.foldl Proto.addUintField none)).getD {} = e.mUdfMeta := by
    rw [Proto.foldl_addStrField, Proto.foldl_addUintField]
    rfl
  simp [ofProto, toProtoEvent, hmeta]

namespace Event

variable {events : List Event} {bundle : List Proto.Event} {e : Event} {version : ℕ}

theorem ofProto_toProtoEvent (h : e.isWriteOrDelete = true) : e.toProtoEvent.bind ofProto = some e.logged := by
  cases e with
  | read e | importKV e => cases h
  | write e => simp [toProtoEvent, ofProto, logged]
  | delete e => rfl

@[simp] theorem version_logged (e : Event) : e.logged.version = e.version := by
  cases e <;> rfl

@[simp] theorem apply_logged {σ : Type} [KVStore σ] (kvStore : σ) (e : Event) :
    e.logged.apply kvStore = e.apply kvStore := by
  cases e <;> rfl

theorem applyAll_logged {σ : Type} [KVStore σ] (kvStore : σ) (events : List Event) :
    applyAll kvStore (events.map logged) = applyAll kvStore events := by
  unfold applyAll
  rw [foldl_map]
  simp only [apply_logged]

theorem exists_bundle (h : ∀ e ∈ events, e.isWriteOrDelete = true) :
    ∃ bundle, toBundle events = some bundle ∧ fromBundle bundle = some (events.map logged) := by
  induction events with
  | nil => exact ⟨[], rfl, rfl⟩
  | cons e events ih =>
    obtain ⟨bundle, hto, hfrom⟩ := ih fun f hf => h f (mem_cons_of_mem _ hf)
    obtain ⟨p, hp, hpe⟩ := Option.bind_eq_some_iff.mp (ofProto_toProtoEvent (h e mem_cons_self))
    exact ⟨p :: bundle, mapM_cons_eq_some.mpr ⟨p, bundle, hp, hto, rfl⟩,
      mapM_cons_eq_some.mpr ⟨e.logged, events.map logged, hpe, hfrom, rfl⟩⟩

theorem getVersionFromBundle_toBundle (h : toBundle events = some bundle) (hne : bundle ≠ []) :
    Proto.getVersionFromBundle bundle = some (Model.getVersionFromBundle events) := by
  cases events with
  | nil =>
    cases h
    exact absurd rfl hne
  | cons e events =>
    obtain ⟨p, ps, hp, -, rfl⟩ := mapM_cons_eq_some.mp h
    cases e with
    | read e => cases hp
    | write e | delete e | importKV e =>
      cases hp
      rfl

/-- Events that are read back from the log do to every store what the events that were written do. -/
theorem bundle_carries_effect (h : ∀ e ∈ events, e.isWriteOrDelete = true ∧ e.version = version) :
    ∃ bundle decoded, toBundle events = some bundle ∧ fromBundle bundle = some decoded ∧
      (∀ (σ : Type) [KVStore σ] (kvStore : σ), applyAll kvStore decoded = applyAll kvStore events) ∧
      (bundle ≠ [] → Proto.getVersionFromBundle bundle = some version) ∧
      ∀ e ∈ decoded, e.version = version := by
  obtain ⟨bundle, hto, hfrom⟩ := exists_bundle fun e he => (h e he).1
  refine ⟨bundle, events.map logged, hto, hfrom, fun σ _ kvStore => applyAll_logged kvStore events,
    fun hne => ?_, fun e he => ?_⟩
  · rw [getVersionFromBundle_toBundle hto hne]
    cases events with
    | nil =>
      cases hto
      exact absurd rfl hne
    | cons e events => exact congrArg some (h e mem_cons_self).2
  · obtain ⟨f, hf, rfl⟩ := mem_map.mp he
    rw [version_logged]
    exact (h f hf).2

/-- A ttl write with user defined fields, a write that does nothing and a delete. -/
def threeEvents : List Event :=
  [.write { mKey := "a", mValue := "1", mVersion := 7, mEnableTTL := true, mTTL := 5, mDeadline := 9,
            mUdfMeta := ⟨[3], ["x"]⟩ },
    .write { mKey := "b", mValue := "2", mVersion := 7, mIsNoOp := true },
    .delete { mKey := "c", mDeletedValue := "old", mDeletedVersion := 4, mVersion := 7 }]

theorem threeEvents_carried : ∃ bundle decoded, toBundle threeEvents = some bundle ∧
    fromBundle bundle = some decoded ∧
      (∀ (σ : Type) [KVStore σ] (kvStore : σ), applyAll kvStore decoded = applyAll kvStore threeEvents) ∧
      (bundle ≠ [] → Proto.getVersionFromBundle bundle = some 7) ∧ ∀ e ∈ decoded, e.version = 7 :=
  bundle_carries_effect (by decide)

end Event

end RoundTrip

end Goblin.Model
