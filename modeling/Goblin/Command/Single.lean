import Goblin.Command.Basic

/-! The commands on a single key, generated writes, eviction and connect. -/
namespace Goblin.Model

structure WriteEntry where
  key : KeyType
  value : ValueType
  enableTTL : Bool := false
  ttl : ℕ := INFINITE_TTL
  udfMeta : UserDefinedMeta := DEFAULT_UDFMETA
  deriving DecidableEq, Repr

structure ReadEntry where
  key : KeyType
  deriving DecidableEq, Repr

structure RemoveEntry where
  key : KeyType
  version : ℕ := kInvalidVersion
  deriving DecidableEq, Repr

/-- A write that enables the ttl without giving one takes over the ttl of the value it replaces, as
long as that value has a ttl and is alive. -/
def fixTTL (key : KeyType) (enableTTL : Bool) (ttl : ℕ) : StoreProg (Except Status (Bool × ℕ)) :=
  if enableTTL ∧ ttl = INFINITE_TTL then do
    let (s, m) ← readMeta key
    let now ← secondsSinceEpoch
    if s.isOK then
      if m.ttl ≠ INFINITE_TTL ∧ m.deadline > now then return .ok (true, m.ttl)
      else return .ok (false, ttl)
    else if s.isNotFound then return .ok (false, ttl)
    else return .error s
  else return .ok (enableTTL, ttl)

def newWriteEvent (e : WriteEntry) (enableTTL : Bool) (ttl curTime updateTime : ℕ) : WriteEvent where
  mKey := e.key
  mValue := e.value
  mEnableTTL := enableTTL
  mTTL := ttl
  mDeadline := if enableTTL then addDeadline ttl curTime else NEVER_EXPIRE
  mUpdateTime := updateTime
  mUdfMeta := e.udfMeta

def foundEvent (key : KeyType) (out : ReadOut) (updateTime : ℕ := NOT_UPDATED)
    (udfMeta : UserDefinedMeta := DEFAULT_UDFMETA) : Event :=
  .read ⟨key, out.value, out.ttl, out.version, false, updateTime, udfMeta⟩

def notFoundEvent (key : KeyType) (out : ReadOut) : Event :=
  .read ⟨key, out.value, out.ttl, out.version, true, NOT_UPDATED, DEFAULT_UDFMETA⟩

/-- The event of a read that found the key, with its user defined meta where it has one. -/
def newReadEvent (fromProxy isMetaReturned : Bool) (key : KeyType) (out : ReadOut) :
    StoreProg Event :=
  if isMetaReturned then do
    let (s, m) ← readMetaFrom fromProxy key
    match m.udfMeta with
    | some udfMeta =>
      if s.isNotFound then return foundEvent key out
      else return foundEvent key out m.updateTime udfMeta
    | none => return foundEvent key out
  else return foundEvent key out

def KVPutCommand.execute (e : WriteEntry) : StoreProg ExecResult := do
  match ← fixTTL e.key e.enableTTL (if e.enableTTL then e.ttl else INFINITE_TTL) with
  | .error s => return { status := s }
  | .ok (enableTTL, ttl) =>
    let curTime ← secondsSinceEpoch
    let updateTime ← secondsSinceEpoch
    return { status := .ok, events := [.write (newWriteEvent e enableTTL ttl curTime updateTime)] }

def KVPutCommand.initSuccessResponse (curMaxVersion : ℕ) : List Event → Option Response
  | [] => some { latestVersion := curMaxVersion, results := [.write .OK kInvalidVersion] }
  | [.write e] => some
    { latestVersion := max e.mVersion curMaxVersion, results := [.write .OK e.mVersion] }
  | _ => none

def KVPutCommand (e : WriteEntry) : Command where
  getTargetKeys := some [e.key]
  execute := KVPutCommand.execute e
  initSuccessResponse curMaxVersion _ events := KVPutCommand.initSuccessResponse curMaxVersion events
  routeHintCode := some .WRONG_ROUTE

structure GetRequest where
  entry : ReadEntry
  allowStale : Bool := false
  isMetaReturned : Bool := false
  deriving DecidableEq, Repr

def KVGetCommand.execute (req : GetRequest) : StoreProg ExecResult := do
  let (s, out) ← readKVFrom req.allowStale req.entry.key {}
  if s.isNotFound then return { status := s, events := [notFoundEvent req.entry.key out] }
  else if s.isOK then
    let e ← newReadEvent req.allowStale req.isMetaReturned req.entry.key out
    return { status := s, events := [e] }
  else return { status := s }

/-- The result of a read; the version is the one the context has settled on. -/
def ReadEvent.result (e : ReadEvent) (isMetaReturned : Bool) (version : ℕ) : Result :=
  if e.mIsNotFound then .read .KEY_NOT_EXIST e.mValue kInvalidVersion NOT_UPDATED DEFAULT_UDFMETA
  else if isMetaReturned then .read .OK e.mValue version e.mUpdateTime e.mUdfMeta
  else .read .OK e.mValue version NOT_UPDATED DEFAULT_UDFMETA

def KVGetCommand.initSuccessResponse (req : GetRequest) (curMaxVersion : ℕ) :
    List Event → Option Response
  | [] => some
    { latestVersion := curMaxVersion
      results := [.read .OK "" kInvalidVersion NOT_UPDATED DEFAULT_UDFMETA] }
  | [.read e] => some
    { latestVersion := max curMaxVersion e.mVersion
      results := [e.result req.isMetaReturned e.mVersion] }
  | _ => none

def KVGetCommand (req : GetRequest) : Command where
  isFollowerReadCmd := req.allowStale
  getTargetKeys := some [req.entry.key]
  isExclusive := false
  execute := KVGetCommand.execute req
  initSuccessResponse curMaxVersion _ events :=
    KVGetCommand.initSuccessResponse req curMaxVersion events
  routeHintCode := some .WRONG_ROUTE

structure DeleteRequest where
  entry : RemoveEntry
  returnValue : Bool := false
  deriving DecidableEq, Repr

/-- The event of a removal that found the key under the version in `out`. -/
def removeEvent (e : RemoveEntry) (out : ReadOut) (deletedValue : ValueType) : Event :=
  if e.version ≠ kInvalidVersion ∧ e.version ≠ out.version then notFoundEvent e.key out
  else .delete { mKey := e.key, mDeletedValue := deletedValue, mDeletedVersion := out.version }

def KVDeleteCommand.execute (req : DeleteRequest) : StoreProg ExecResult := do
  let (s, out) ← readKV req.entry.key {}
  if s.isNotFound then return { status := s, events := [notFoundEvent req.entry.key out] }
  else if s.isOK then
    let deletedValue := if req.returnValue then out.value else ""
    return { status := s, events := [removeEvent req.entry out deletedValue] }
  else return { status := s }

def KVDeleteCommand.initSuccessResponse (curMaxVersion : ℕ) : List Event → Option Response
  | [] => some { latestVersion := curMaxVersion, results := [.remove .OK "" kInvalidVersion] }
  | [.delete e] => some
    { latestVersion := max e.mVersion curMaxVersion
      results := [.remove .OK e.mDeletedValue e.mDeletedVersion] }
  | [.read e] =>
    if e.mIsNotFound then some
      { latestVersion := curMaxVersion, results := [.remove .KEY_NOT_EXIST "" kInvalidVersion] }
    else none
  | _ => none

def KVDeleteCommand (req : DeleteRequest) : Command where
  getTargetKeys := some [req.entry.key]
  execute := KVDeleteCommand.execute req
  initSuccessResponse curMaxVersion _ events :=
    KVDeleteCommand.initSuccessResponse curMaxVersion events
  routeHintCode := some .MIGRATED_ROUTE

/-- A generate request as `prepare` leaves it: the values and versions that the source keys had then,
and what the user defined function has made of them. -/
structure GenerateRequest where
  srcKeys : List KeyType
  tgtKeys : List KeyType
  kvsToRead : List (KeyType × ValueType × ℕ)
  kvsToWrite : List (KeyType × ValueType)
  outputInfo : String := ""
  deriving DecidableEq, Repr

/-- The source keys still have the versions that were read. -/
def KVGenerateCommand.checkReads : List (KeyType × ValueType × ℕ) → StoreProg (Except Status Unit)
  | [] => return .ok ()
  | (key, _, expectedVersion) :: rest => do
    let (s, out) ← readKV key {}
    if !s.isOK then return .error s
    else if expectedVersion ≠ out.version then
      let msg := "unmatched version, existing: " ++ toString out.version ++ ", expected: " ++
        toString expectedVersion
      return .error (.precondUnmatched msg)
    else checkReads rest

/-- A ttl that was set before is refreshed. -/
def KVGenerateCommand.writes : List (KeyType × ValueType) → List Event → StoreProg ExecResult
  | [], events => return { status := .ok, events := events }
  | (key, value) :: rest, events => do
    let (s, m) ← readMeta key
    if !s.isOK ∧ !s.isNotFound then return { status := s, events := events }
    else
      let now ← secondsSinceEpoch
      let ttl := if s.isOK ∧ m.ttl ≠ INFINITE_TTL ∧ m.deadline > now then m.ttl else INFINITE_TTL
      let curTime ← secondsSinceEpoch
      let e : WriteEvent :=
        if ttl ≠ INFINITE_TTL then
          { mKey := key, mValue := value, mEnableTTL := true, mTTL := ttl, mDeadline := addDeadline ttl curTime }
        else { mKey := key, mValue := value }
      writes rest (events ++ [.write e])

def KVGenerateCommand.execute (req : GenerateRequest) : StoreProg ExecResult := do
  match ← checkReads req.kvsToRead with
  | .error s => return { status := s }
  | .ok () => writes req.kvsToWrite []

def KVGenerateCommand.initSuccessResponse (req : GenerateRequest) (curMaxVersion : ℕ) (events : List Event) :
    Option Response :=
  if events.all fun e => match e with | .write _ => true | _ => false then
    some { latestVersion := curMaxVersion, results := [.generate .OK req.outputInfo] }
  else none

def KVGenerateCommand (req : GenerateRequest) : Command where
  getTargetKeys := some (req.srcKeys ++ req.tgtKeys)
  execute := KVGenerateCommand.execute req
  initSuccessResponse curMaxVersion _ events :=
    KVGenerateCommand.initSuccessResponse req curMaxVersion events
  routeHintCode := some .WRONG_ROUTE

def KVEvictCommand (keys : List KeyType) (version : ℕ) : Command where
  getTargetKeys := some keys
  execute := .ret { status := .ok }
  initSuccessResponse curMaxVersion _ _ := some { latestVersion := curMaxVersion }
  evicts := some (keys, version)

def ConnectCommand : Command where
  getTargetKeys := some []
  isExclusive := false
  execute := .ret { status := .ok }
  initSuccessResponse curMaxVersion _ events :=
    if events = [] then some { latestVersion := curMaxVersion } else none

end Goblin.Model
