import Goblin.Command.Single
import Goblin.Store.Temporal

/-! `KVTransCommand`: preconditions, then entries one after the other over an overlay. -/
namespace Goblin.Model

open Store Lib

inductive CompareOp
  | EQUAL | GREATER | LESS | NOT_EQUAL
  deriving DecidableEq, Repr

inductive UdfMetaType
  | NOT_SPECIFIED | NUM | STR | OTHERS
  deriving DecidableEq, Repr

inductive Precondition
  | versionCond (key : KeyType) (version : ℕ) (op : CompareOp)
  | existCond (key : KeyType) (shouldExist : Bool)
  | userMetaCond (key : KeyType) (metaType : UdfMetaType) (udfMeta : UserDefinedMeta) (pos : ℕ)
      (op : CompareOp)
  | unset
  deriving DecidableEq, Repr

inductive Entry
  | write (e : WriteEntry)
  | read (e : ReadEntry)
  | remove (e : RemoveEntry)
  | unset
  deriving DecidableEq, Repr

structure TransRequest where
  preconds : List Precondition := []
  entries : List Entry
  isMetaReturned : Bool := false
  allowStale : Bool := false
  deriving DecidableEq, Repr

namespace KVTransCommand

def isFollowerReadCmd (req : TransRequest) : Bool :=
  req.allowStale && req.entries.all fun
    | .read _ => true
    | _ => false

def condKey : Precondition → List KeyType
  | .versionCond key _ _ => [key]
  | .existCond key _ => [key]
  | .userMetaCond key _ _ _ _ => [key]
  | .unset => []

def entryKey : Entry → Option KeyType
  | .write e => some e.key
  | .read e => some e.key
  | .remove e => some e.key
  | .unset => none

/-- An unset entry fails an assertion here, before the command is executed. -/
def getTargetKeys (req : TransRequest) : Option (List KeyType) := do
  let keys ← req.entries.mapM entryKey
  return req.preconds.flatMap condKey ++ keys

/-- What the preconditions leave behind for the entries. -/
structure CondState where
  udfKeySet : List KeyType := []
  ignoredUdfUintKeys : List KeyType := []
  udfUintKey2Meta : KeyType → Option UserDefinedMeta := fun _ => none

/-- The status after a precondition, and whether the loop breaks at it. -/
structure CondResult where
  status : Status
  stop : Bool
  state : CondState

def checkVersionCond (fromProxy : Bool) (st : CondState) (key : KeyType) (expectedVersion : ℕ)
    (op : CompareOp) : StoreProg CondResult := do
  let (s, out) ← readKVFrom fromProxy key {}
  if !s.isOK then return ⟨.precondUnmatched s.detail, true, st⟩
  else if op = .EQUAL then
    if expectedVersion ≠ out.version then
      let msg := "unmatched version, existing: " ++ toString out.version ++ ", expected: " ++
        toString expectedVersion
      return ⟨.precondUnmatched msg, true, st⟩
    else return ⟨s, false, st⟩
  else return ⟨.notSupported "", true, st⟩

def checkExistCond (fromProxy : Bool) (st : CondState) (key : KeyType) (shouldExist : Bool) :
    StoreProg CondResult := do
  let (s, _) ← readKVFrom fromProxy key {}
  if shouldExist && s.isOK then return ⟨.ok, false, st⟩
  else if !shouldExist && s.isNotFound then return ⟨.ok, false, st⟩
  else
    let msg := "shouldExist: " ++ (if shouldExist then "1" else "0") ++ ", query result: " ++ s.detail
    return ⟨.precondUnmatched msg, true, st⟩

/-- The comparison reads the stored field even when the stored meta has no such field. -/
def compareUint (s : Status) (st : CondState) (key : KeyType) (expected provided : UserDefinedMeta)
    (pos : ℕ) (op : CompareOp) : StoreProg CondResult :=
  if expected.uintField = [] ∧ pos ≥ provided.uintField.length then
    return ⟨.error "out of index error", true, st⟩
  else if expected.uintField ≠ [] ∧
      (pos ≥ expected.uintField.length ∨ pos ≥ provided.uintField.length) then
    return ⟨.error "out of index error", true, st⟩
  else
    match expected.uintField[pos]?, provided.uintField[pos]? with
    | some e, some p =>
      if op = .GREATER then
        if p ≤ e then
          return ⟨s, false, { st with ignoredUdfUintKeys := key :: st.ignoredUdfUintKeys }⟩
        else return ⟨s, false,
          { st with udfUintKey2Meta := Function.update st.udfUintKey2Meta key (some provided) }⟩
      else return ⟨.notSupported "", true, st⟩
    | _, _ => .abort

def checkUserMetaCond (fromProxy : Bool) (st : CondState) (key : KeyType) (metaType : UdfMetaType)
    (udfMeta : UserDefinedMeta) (pos : ℕ) (op : CompareOp) : StoreProg CondResult :=
  if key ∈ st.udfKeySet then return ⟨.notSupported "", true, st⟩
  else do
    let st := { st with udfKeySet := key :: st.udfKeySet }
    let (s, _) ← readKVFrom fromProxy key {}
    if s.isNotFound then return ⟨.ok, false, st⟩
    else do
      let (s, m) ← readMetaFrom fromProxy key
      match m.udfMeta with
      | none => return ⟨.ok, false, st⟩
      | some stored =>
        if s.isNotFound then return ⟨.ok, false, st⟩
        else if metaType = .NUM then compareUint s st key stored udfMeta pos op
        else return ⟨.notSupported "", true, st⟩

def checkCond (fromProxy : Bool) (st : CondState) : Precondition → StoreProg CondResult
  | .versionCond key version op => checkVersionCond fromProxy st key version op
  | .existCond key shouldExist => checkExistCond fromProxy st key shouldExist
  | .userMetaCond key metaType udfMeta pos op =>
    checkUserMetaCond fromProxy st key metaType udfMeta pos op
  | .unset => return ⟨.notSupported "", true, st⟩

def checkPrecond (fromProxy : Bool) : List Precondition → Status → CondState →
    StoreProg (Status × CondState)
  | [], s, st => return (s, st)
  | cond :: conds, _, st => do
    let r ← checkCond fromProxy st cond
    if r.stop then return (r.status, r.state)
    else checkPrecond fromProxy conds r.status r.state

/-- `std::equal` with three iterators: it compares the whole first range, and reads past the end of
the second one when that is shorter. -/
def stdEqual {α : Type} [DecidableEq α] : List α → List α → Option Bool
  | [], _ => some true
  | _ :: _, [] => none
  | a :: as, b :: bs => if a = b then stdEqual as bs else some false

def udfMetaIdentical (udfMeta condUdfMeta : UserDefinedMeta) : Option Bool := do
  let uintCmpResult ← stdEqual udfMeta.uintField condUdfMeta.uintField
  let strCmpResult ← stdEqual udfMeta.strField condUdfMeta.strField
  return uintCmpResult && strCmpResult

/-- The overlay, the status and the events collected by the loop over the entries. -/
structure LoopState where
  tempStore : TemporalKVStore := {}
  status : Status := .ok
  events : List Event := []
  stop : Bool := false

def LoopState.push (st : LoopState) (s : Status) (e : Event) : LoopState :=
  { st with status := s, events := st.events ++ [e] }

def LoopState.fail (st : LoopState) (s : Status) : LoopState :=
  { st with status := s, stop := true }

def ignoredEvent (e : WriteEntry) : Event :=
  .write { mKey := e.key, mValue := e.value, mEnableTTL := e.enableTTL,
           mTTL := if e.enableTTL then e.ttl else INFINITE_TTL, mIsNoOp := true }

/-- The write itself, once ttl and user defined meta are settled. -/
def putEntry (curTime : ℕ) (st : LoopState) (e : WriteEntry) (enableTTL : Bool) (ttl : ℕ) :
    StoreProg LoopState := do
  let updateTime ← secondsSinceEpoch
  let w := newWriteEvent e enableTTL ttl curTime updateTime
  let tempStore :=
    if enableTTL then
      st.tempStore.writeTTLKV e.key e.value kInvalidVersion ttl w.mDeadline updateTime e.udfMeta
    else st.tempStore.writeKV e.key e.value kInvalidVersion updateTime e.udfMeta
  return { st with tempStore := tempStore }.push .ok (.write w)

def writeEntry (cond : CondState) (curTime : ℕ) (st : LoopState) (e : WriteEntry) :
    StoreProg LoopState :=
  if e.key ∈ cond.ignoredUdfUintKeys then return st.push st.status (ignoredEvent e)
  else do
    match ← fixTTL e.key e.enableTTL (if e.enableTTL then e.ttl else INFINITE_TTL) with
    | .error s => return st.fail s
    | .ok (enableTTL, ttl) =>
      match cond.udfUintKey2Meta e.key with
      | none => putEntry curTime st e enableTTL ttl
      | some condUdfMeta =>
        match udfMetaIdentical e.udfMeta condUdfMeta with
        | none => .abort
        | some false => return st.fail (.error "udfmeta not identical")
        | some true => putEntry curTime st e enableTTL ttl

/-- The read goes through a copy of the overlay. -/
def tempReadKV (fromProxy : Bool) (tempStore : TemporalKVStore) (key : KeyType) :
    StoreProg (Status × ReadOut) :=
  if fromProxy then tempStore.readKVFromProxy key {}
  else do
    let (r, _) ← tempStore.readKV key {}
    return r

def readEntry (fromProxy isMetaReturned : Bool) (st : LoopState) (e : ReadEntry) :
    StoreProg LoopState := do
  let (s, out) ← tempReadKV fromProxy st.tempStore e.key
  if s.isNotFound then return st.push s (notFoundEvent e.key out)
  else if s.isOK then do
    let event ← newReadEvent fromProxy isMetaReturned e.key out
    return st.push s event
  else return st.fail s

/-- The removal is not recorded in the overlay, and a failed read does not end the loop. -/
def removeEntry (st : LoopState) (e : RemoveEntry) : StoreProg LoopState := do
  let ((s, out), tempStore) ← st.tempStore.readKV e.key {}
  let st := { st with tempStore := tempStore }
  if s.isNotFound then return st.push s (notFoundEvent e.key out)
  else if s.isOK then return st.push s (removeEvent e out out.value)
  else return { st with status := s }

def execEntry (req : TransRequest) (cond : CondState) (curTime : ℕ) (st : LoopState) :
    Entry → StoreProg LoopState
  | .write e => writeEntry cond curTime st e
  | .read e => readEntry (isFollowerReadCmd req) req.isMetaReturned st e
  | .remove e => removeEntry st e
  | .unset => return st.fail (.invalidArg "invalid request")

def execEntries (req : TransRequest) (cond : CondState) (curTime : ℕ) :
    List Entry → LoopState → StoreProg LoopState
  | [], st => return st
  | e :: es, st => do
    let st ← execEntry req cond curTime st e
    if st.stop then return st else execEntries req cond curTime es st

/-- The loop over two lists of entries; the second one is not reached when the first one stops. -/
theorem execEntries_append {req : TransRequest} {cond : CondState} {curTime : ℕ} {st : LoopState}
    (before after : List Entry) (hgo : st.stop = false) :
    execEntries req cond curTime (before ++ after) st =
      (execEntries req cond curTime before st >>= fun st₁ =>
        if st₁.stop then pure st₁ else execEntries req cond curTime after st₁) := by
  induction before generalizing st with
  | nil => simp [execEntries, hgo]
  | cons entry before ih =>
    rw [List.cons_append, execEntries, execEntries, Program.bind_assoc]
    congr 1
    funext st₁
    cases hs : st₁.stop with
    | true => simp [hs]
    | false => simpa using ih hs

def execute (req : TransRequest) : StoreProg ExecResult := do
  let (s, cond) ← checkPrecond (isFollowerReadCmd req) req.preconds .ok {}
  if !s.isOK then return { status := s, ignoredPutKeys := cond.ignoredUdfUintKeys }
  else do
    let curTime ← secondsSinceEpoch
    let st ← execEntries req cond curTime req.entries { status := s }
    return { status := st.status, events := st.events, ignoredPutKeys := cond.ignoredUdfUintKeys }

/-- The response under construction: the versions of the keys written so far, the newest version
and the results. -/
structure ResponseState where
  newKey2version : KeyType → Option ℕ := fun _ => none
  latestVersion : ℕ
  results : List Result := []

def addResult (isMetaReturned : Bool) (r : ResponseState) : Entry → Event → Option ResponseState
  | .write _, .write w => some
    { newKey2version := Function.update r.newKey2version w.mKey (some w.mVersion)
      latestVersion := max w.mVersion r.latestVersion
      results := r.results ++ [.write .OK w.mVersion] }
  | .read _, .read e =>
    let valueVersion := (r.newKey2version e.mKey).getD e.mVersion
    some { r with
      latestVersion := max valueVersion r.latestVersion
      results := r.results ++ [e.result isMetaReturned valueVersion] }
  | .remove _, .read e =>
    if e.mIsNotFound then some { r with
      latestVersion := max e.mVersion r.latestVersion
      results := r.results ++ [.remove .KEY_NOT_EXIST "" kInvalidVersion] }
    else none
  | .remove _, .delete d => some { r with
      latestVersion := max d.mVersion r.latestVersion
      results := r.results ++ [.remove .OK d.mDeletedValue d.mDeletedVersion] }
  | _, _ => none

/-- A list of events that is not empty has to match the entries one by one. -/
def addResults (isMetaReturned : Bool) : List Entry → List Event → ResponseState → Option ResponseState
  | [], [], r => some r
  | e :: es, v :: vs, r => do
    let r ← addResult isMetaReturned r e v
    addResults isMetaReturned es vs r
  | _, _, _ => none

def initSuccessResponse (req : TransRequest) (curMaxVersion : ℕ) (ignoredPutKeys : List KeyType)
    (events : List Event) : Option Response := do
  let r ←
    if events = [] then some { latestVersion := curMaxVersion }
    else addResults req.isMetaReturned req.entries events { latestVersion := curMaxVersion }
  return { latestVersion := r.latestVersion, results := r.results, ignoredPutKeys := ignoredPutKeys }

end KVTransCommand

def KVTransCommand (req : TransRequest) : Command where
  isFollowerReadCmd := KVTransCommand.isFollowerReadCmd req
  getTargetKeys := KVTransCommand.getTargetKeys req
  execute := KVTransCommand.execute req
  initSuccessResponse := KVTransCommand.initSuccessResponse req
  routeHintCode := some .WRONG_ROUTE

end Goblin.Model
