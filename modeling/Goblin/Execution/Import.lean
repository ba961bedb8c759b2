import Goblin.Execution.EntryLoop
import Goblin.Execution.Processor

/-! `KVImportCommand`, the command of a migrated record on the target: its event has a type of its own, which
the path to the log and to the response does not know. -/
namespace Goblin.Model

open Store

/-- The fields of a write entry that an import reads. -/
structure ImportEntry extends WriteEntry where
  version : ℕ := kInvalidVersion
  deriving DecidableEq, Repr

/-- An import drops the user defined fields of its entry. -/
def newImportEvent (e : ImportEntry) (enableTTL : Bool) (ttl curTime : ℕ) : ImportEvent where
  mWriteEvent :=
    { mKey := e.key
      mValue := e.value
      mEnableTTL := enableTTL
      mTTL := ttl
      mDeadline := if enableTTL then addDeadline ttl curTime else NEVER_EXPIRE }
  mImportedVersion := e.version

def KVImportCommand.execute (e : ImportEntry) : StoreProg ExecResult := do
  match ← fixTTL e.key e.enableTTL (if e.enableTTL then e.ttl else INFINITE_TTL) with
  | .error s => return { status := s }
  | .ok (enableTTL, ttl) =>
    let curTime ← secondsSinceEpoch
    return { status := .ok, events := [.importKV (newImportEvent e enableTTL ttl curTime)] }

/-- The context is that of a put. -/
def KVImportCommand (e : ImportEntry) : Command where
  getTargetKeys := some [e.key]
  execute := KVImportCommand.execute e
  initSuccessResponse curMaxVersion _ events := KVPutCommand.initSuccessResponse curMaxVersion events

/-- The entry gives no ttl, and looking up that of the value it replaces fails. -/
def Stores.FailsTTL (s : Stores) (e : ImportEntry) : Prop :=
  e.enableTTL = true ∧ e.ttl = INFINITE_TTL ∧
    (s.readMeta e.key).1.isOK = false ∧ (s.readMeta e.key).1.isNotFound = false

theorem run_fixTTL_import {s : Stores} {e : ImportEntry} :
    (s.FailsTTL e ∧ (fixTTL e.key e.enableTTL (if e.enableTTL then e.ttl else INFINITE_TTL)).run Stores.answer s =
        some (.error (s.readMeta e.key).1, s)) ∨
      ¬ s.FailsTTL e ∧ ∃ enableTTL ttl,
        (fixTTL e.key e.enableTTL (if e.enableTTL then e.ttl else INFINITE_TTL)).run Stores.answer s =
          some (.ok (enableTTL, ttl), s) := by
  have hiff : s.FailsTTL e ↔ Execution.Reuses e.toWriteEntry ∧ Execution.Failed (s.readMeta e.key).1 := and_assoc.symm
  rw [Execution.run_fixTTL s e.toWriteEntry, hiff]
  by_cases h : Execution.Reuses e.toWriteEntry ∧ Execution.Failed (s.readMeta e.key).1
  · exact .inl ⟨h, by rw [if_pos h]⟩
  · exact .inr ⟨h, _, _, by rw [if_neg h]⟩

end Goblin.Model

namespace Goblin.Execution

open Model Store

variable {p : Processor} {e : ImportEntry} {preExecute : Status}

/-- The server goes on after the import, and if it answers OK the record is on its way to the log under the
imported version. -/
def Imports (p : Processor) (e : ImportEntry) (preExecute : Status) : Prop :=
  ∃ out p', doExecute p (KVImportCommand e) preExecute = some (out, p') ∧
    (out.response.code = .OK → ∃ response bundle, out = .persistAsync e.version response bundle ∧
      ∃ event ∈ bundle, ∃ r, event.effect = some (e.key, some r) ∧ r.value = e.value ∧ r.version = e.version)

theorem toResponseCode_eq_OK {s : Status} : toResponseCode s = .OK ↔ s.isOK = true := by
  obtain ⟨code, detail⟩ := s
  cases code <;> simp [toResponseCode, Status.isOK]

/-- The event of an import is neither collected for the log nor known to the response. -/
theorem dispatch_import (v : VersionStore) (i : ImportEvent) :
    dispatch (KVImportCommand e) v { status := .ok, events := [.importKV i] } = none := by
  simp [dispatch, hasFailed, expectedVersion, isNonRead, KVImportCommand, KVPutCommand.initSuccessResponse]

theorem doExecute_import_abort (hpre : preExecute.isOK = true) (httl : ¬ p.stores.FailsTTL e) :
    doExecute p (KVImportCommand e) preExecute = none := by
  obtain ⟨hfails, -⟩ | ⟨-, enableTTL, ttl, hfix⟩ := run_fixTTL_import (s := p.stores) (e := e)
  · exact absurd hfails httl
  have hrun : (KVImportCommand e).execute.run Stores.answer p.stores =
      some ({ status := .ok, events := [.importKV (newImportEvent e enableTTL ttl p.stores.now)] }, p.stores) := by
    simp [KVImportCommand, KVImportCommand.execute, hfix]
  have hkeys : (KVImportCommand e).getTargetKeys = some [e.key] := rfl
  simp [doExecute, hpre, hkeys, hrun, dispatch_import]

theorem doExecute_import_refused {s : Status} (hs : s.isOK = false)
    (hrun : (if preExecute.isOK then (KVImportCommand e).execute.run Stores.answer p.stores
      else some ({ status := preExecute }, p.stores)) = some ({ status := s }, p.stores)) :
    Imports p e preExecute := by
  have hkeys : (KVImportCommand e).getTargetKeys = some [e.key] := rfl
  have hdispatch : dispatch (KVImportCommand e) p.versions { status := s } = some ⟨none, [], p.versions⟩ := by
    simp [dispatch, hasFailed]
  obtain ⟨response, hresponse, hcode⟩ : ∃ response,
      errorReply (KVImportCommand e) p.versions { status := s } = some response ∧ response.code = toResponseCode s :=
    ⟨_, rfl, rfl⟩
  have hdo : doExecute p (KVImportCommand e) preExecute =
      some (.reply response, { p with stores := (KVImportCommand e).finish p.stores [] }) := by
    by_cases hpre : preExecute.isOK = true
    · rw [if_pos hpre] at hrun
      simp [doExecute, hpre, hkeys, hrun, hdispatch, hresponse]
    · rw [if_neg hpre, Option.some.injEq, Prod.mk.injEq] at hrun
      simp [doExecute, hpre, hkeys, hrun.1, hdispatch, hresponse]
  refine ⟨_, _, hdo, fun hok => ?_⟩
  have hstatus : s.isOK = true := toResponseCode_eq_OK.mp (hcode.symm.trans hok)
  simp [hs] at hstatus

/-- An import is safe only if it is refused. -/
theorem imports_iff_refused (p : Processor) (e : ImportEntry) (preExecute : Status) :
    Imports p e preExecute ↔ preExecute.isOK = false ∨ p.stores.FailsTTL e := by
  constructor
  · rintro ⟨out, p', hdo, -⟩
    by_contra hno
    obtain ⟨hpre, httl⟩ := not_or.mp hno
    rw [doExecute_import_abort (by simpa using hpre) httl] at hdo
    cases hdo
  · intro h
    by_cases hpre : preExecute.isOK = true
    · have httl : p.stores.FailsTTL e := h.resolve_left (by simp [hpre])
      obtain ⟨-, hfix⟩ | ⟨hno, -⟩ := run_fixTTL_import (s := p.stores) (e := e)
      · refine doExecute_import_refused httl.2.2.1 ?_
        simp [hpre, KVImportCommand, KVImportCommand.execute, hfix]
      · exact absurd httl hno
    · exact doExecute_import_refused (s := preExecute) (by simpa using hpre) (by simp [hpre])

/-- The plainest import aborts the server. -/
theorem import_aborts : doExecute {} (KVImportCommand { key := "k", value := "v", version := 5 }) = none ∧
    ¬ Imports {} { key := "k", value := "v", version := 5 } .ok := by
  have habort : doExecute {} (KVImportCommand { key := "k", value := "v", version := 5 }) = none := rfl
  refine ⟨habort, fun h => ?_⟩
  obtain ⟨out, p', hdo, -⟩ := h
  cases habort.symm.trans hdo

end Goblin.Execution
