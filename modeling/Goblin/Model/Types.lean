import Mathlib

/-! Status codes, user defined metadata and the values exchanged between the stores and the commands.
Versions, milestones, ttls and times are natural numbers; where their width matters it is explicit. -/
namespace Goblin.Model

abbrev KeyType := String
abbrev ValueType := String

def kInvalidVersion : ℕ := 0
def INFINITE_TTL : ℕ := 0
def NEVER_EXPIRE : ℕ := 0
def NOT_UPDATED : ℕ := 0

/-- `TTLType` and `TimeType` are 32 bit unsigned, so a deadline wraps. -/
def addDeadline (ttl : ℕ) (now : ℕ) : ℕ := (ttl + now) % 2 ^ 32

/-- `KVStore::isTimeOut`, with the clock as an argument. -/
def isTimeOut (now deadline : ℕ) (ttl : ℕ) : Bool :=
  ttl ≠ INFINITE_TTL && deadline ≤ now

inductive StatusCode
  | ok | error | oom | notFound | precondUnmatched | notSupported | invalidArg | expired
  | notLeader | stopped | clientRouteOutOfDate | serverRouteOutOfDate | wrongRoute | migratedRoute
  | outOfService
  deriving DecidableEq, Repr

structure Status where
  code : StatusCode
  detail : String
  deriving DecidableEq, Repr

namespace Status

def ok : Status := ⟨.ok, ""⟩
def error (msg : String) : Status := ⟨.error, msg⟩
def notFound (msg : String) : Status := ⟨.notFound, msg⟩
def precondUnmatched (msg : String) : Status := ⟨.precondUnmatched, msg⟩
def notSupported (msg : String) : Status := ⟨.notSupported, msg⟩
def invalidArg (msg : String) : Status := ⟨.invalidArg, msg⟩
def clientRouteOutOfDate (msg : String) : Status := ⟨.clientRouteOutOfDate, msg⟩
def serverRouteOutOfDate (msg : String) : Status := ⟨.serverRouteOutOfDate, msg⟩
def outOfService (msg : String) : Status := ⟨.outOfService, msg⟩
def wrongRoute (msg : String) : Status := ⟨.wrongRoute, msg⟩
def migratedRoute (msg : String) : Status := ⟨.migratedRoute, msg⟩

def isOK (s : Status) : Bool := s.code = .ok
def isNotFound (s : Status) : Bool := s.code = .notFound

@[simp] theorem isOK_ok : ok.isOK = true := rfl
@[simp] theorem isNotFound_ok : ok.isNotFound = false := rfl
@[simp] theorem isOK_error (msg : String) : (error msg).isOK = false := rfl
@[simp] theorem isNotFound_error (msg : String) : (error msg).isNotFound = false := rfl
@[simp] theorem isOK_notFound (msg : String) : (notFound msg).isOK = false := rfl
@[simp] theorem isNotFound_notFound (msg : String) : (notFound msg).isNotFound = true := rfl
@[simp] theorem isOK_precondUnmatched (msg : String) : (precondUnmatched msg).isOK = false := rfl
@[simp] theorem isOK_notSupported (msg : String) : (notSupported msg).isOK = false := rfl

end Status

structure UserDefinedMeta where
  uintField : List ℕ := []
  strField : List String := []
  deriving DecidableEq, Repr

def DEFAULT_UDFMETA : UserDefinedMeta := {}

/-- A meta without fields is never stored and never reported as present. -/
def UserDefinedMeta.nonempty (m : UserDefinedMeta) : Bool :=
  !m.uintField.isEmpty || !m.strField.isEmpty

/-- `proto::Meta` as `readMeta` fills it; `udfMeta` is `none` when `has_udfmeta()` is false. -/
structure Meta where
  version : ℕ := kInvalidVersion
  ttl : ℕ := INFINITE_TTL
  deadline : ℕ := NEVER_EXPIRE
  updateTime : ℕ := NOT_UPDATED
  udfMeta : Option UserDefinedMeta := none
  deriving DecidableEq, Repr

/-- The out parameters of `readKV`. A store that does not assign one leaves the caller's value. -/
structure ReadOut where
  value : ValueType := ""
  ttl : ℕ := INFINITE_TTL
  version : ℕ := kInvalidVersion
  deriving DecidableEq, Repr

end Goblin.Model
