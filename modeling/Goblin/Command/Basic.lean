import Goblin.Lib.Program
import Goblin.Model.Event
import Goblin.Store.Version

/-! The interface of commands: the store operations they call, the responses they fill in, and the
virtual methods through which the processor drives them. -/
namespace Goblin.Model

open Store Lib

/-- What `execute` may ask of the store it is given. -/
inductive StoreOp
  | readKV (key : KeyType) (out : ReadOut)
  | readKVFromProxy (key : KeyType) (out : ReadOut)
  | readMeta (key : KeyType)
  | readMetaFromProxy (key : KeyType)
  | secondsSinceEpoch

@[reducible] def StoreOp.Res : StoreOp → Type
  | .readKV _ _ => Status × ReadOut
  | .readKVFromProxy _ _ => Status × ReadOut
  | .readMeta _ => Status × Meta
  | .readMetaFromProxy _ => Status × Meta
  | .secondsSinceEpoch => ℕ

abbrev StoreProg := Program StoreOp StoreOp.Res

def readKV (key : KeyType) (out : ReadOut) : StoreProg (Status × ReadOut) :=
  .call (.readKV key out) .ret

def readKVFromProxy (key : KeyType) (out : ReadOut) : StoreProg (Status × ReadOut) :=
  .call (.readKVFromProxy key out) .ret

def readMeta (key : KeyType) : StoreProg (Status × Meta) :=
  .call (.readMeta key) .ret

def readMetaFromProxy (key : KeyType) : StoreProg (Status × Meta) :=
  .call (.readMetaFromProxy key) .ret

def secondsSinceEpoch : StoreProg ℕ :=
  .call .secondsSinceEpoch .ret

def readKVFrom (fromProxy : Bool) (key : KeyType) (out : ReadOut) : StoreProg (Status × ReadOut) :=
  if fromProxy then readKVFromProxy key out else readKV key out

def readMetaFrom (fromProxy : Bool) (key : KeyType) : StoreProg (Status × Meta) :=
  if fromProxy then readMetaFromProxy key else readMeta key

/-- The store of the processor at one moment: the cache, its delegate and the clock. -/
structure Stores where
  mem : InMemoryKVStore := {}
  db : RocksDBKVStore := {}
  now : ℕ := 0

/-- A read may erase an expired cell, and that is all a read changes. -/
def Stores.answer (s : Stores) : (o : StoreOp) → o.Res × Stores
  | .readKV key out =>
    ((s.mem.readKV s.db s.now key out).1, { s with mem := (s.mem.readKV s.db s.now key out).2 })
  | .readKVFromProxy key out => (s.mem.readKVFromProxy s.db s.now key out, s)
  | .readMeta key => (s.mem.readMeta s.db key, s)
  | .readMetaFromProxy key => (s.mem.readMetaFromProxy s.db key, s)
  | .secondsSinceEpoch => (s.now, s)

inductive ResponseCode
  | UNKNOWN | OK | KEY_NOT_EXIST | NOT_LEADER | BAD_REQUEST | PRECOND_NOT_MATCHED | WRONG_ROUTE | MIGRATED_ROUTE
  | CLIENT_ROUTE_OUT_OF_DATE | SERVER_ROUTE_OUT_OF_DATE | GENERAL_ERROR
  deriving DecidableEq, Repr

inductive Result
  | write (code : ResponseCode) (version : ℕ)
  | read (code : ResponseCode) (value : ValueType) (version : ℕ) (updateTime : ℕ)
      (udfMeta : UserDefinedMeta)
  | remove (code : ResponseCode) (value : ValueType) (version : ℕ)
  | generate (code : ResponseCode) (outputInfo : String)
  deriving DecidableEq, Repr

def Result.code : Result → ResponseCode
  | .write code _ => code
  | .read code _ _ _ _ => code
  | .remove code _ _ => code
  | .generate code _ => code

def Result.setCode (code : ResponseCode) : Result → Result
  | .write _ version => .write code version
  | .read _ value version updateTime udfMeta => .read code value version updateTime udfMeta
  | .remove _ value version => .remove code value version
  | .generate _ outputInfo => .generate code outputInfo

structure Response where
  code : ResponseCode := .OK
  message : String := ""
  latestVersion : ℕ
  results : List Result := []
  ignoredPutKeys : List KeyType := []
  deriving DecidableEq, Repr

/-- The part of `fillResponseAndReply` that all contexts share. -/
def Response.fillResponse (r : Response) (code : ResponseCode) (message : String) : Response :=
  { r with
    code := code
    message := message
    results := if code = .OK then r.results else r.results.map (Result.setCode code) }

structure ExecResult where
  status : Status
  events : List Event := []
  ignoredPutKeys : List KeyType := []

/-- The virtual methods of a command and its context. `getTargetKeys` is `none` where the source
asserts, and so is `initSuccessResponse`; `evicts` is what the `finish` of an evict command removes
instead of applying events; `routeHintCode` is the code for which the reply gets a route hint. -/
structure Command where
  isFollowerReadCmd : Bool := false
  getTargetKeys : Option (List KeyType)
  isExclusive : Bool := true
  execute : StoreProg ExecResult
  initSuccessResponse : ℕ → List KeyType → List Event → Option Response
  evicts : Option (List KeyType × ℕ) := none
  routeHintCode : Option ResponseCode := none

/-- `finish` applies the events, or evicts keys. -/
def Command.finish (c : Command) (s : Stores) (events : List Event) : Stores :=
  match c.evicts with
  | none => { s with mem := Event.applyAll s.mem events }
  | some (keys, version) => { s with mem := s.mem.evictKV s.db s.now keys version }

end Goblin.Model
