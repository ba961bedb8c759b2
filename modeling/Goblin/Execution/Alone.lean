import Goblin.Command.Run
import Goblin.Execution.EntryLoop
import Goblin.Execution.Processor

/-! The entries of a transaction as commands of their own: what each one shows and leaves behind. -/
namespace Goblin.Execution

open Model Store Lib KVTransCommand

/-- What an event shows of its entry, apart from versions and the metadata of reads. -/
inductive Seen
  | wrote (w : WriteEvent)
  | removed (key : KeyType) (value : ValueType)
  | found (key : KeyType) (value : ValueType)
  | absent (key : KeyType)
  deriving DecidableEq

def seen : Event → Seen
  | .write w => .wrote { w with mVersion := kInvalidVersion }
  | .delete d => .removed d.mKey d.mDeletedValue
  | .read r => if r.mIsNotFound then .absent r.mKey else .found r.mKey r.mValue
  | .importKV i => .wrote { i.mWriteEvent with mVersion := kInvalidVersion }

/-- The code and the value of a result. -/
def shown : Result → ResponseCode × ValueType
  | .write code _ => (code, "")
  | .read code value _ _ _ => (code, value)
  | .remove code value _ => (code, value)
  | .generate code outputInfo => (code, outputInfo)

/-- The code and the value that an entry reports for what it has seen. -/
def shownFor : Seen → ResponseCode × ValueType
  | .wrote _ => (.OK, "")
  | .removed _ value => (.OK, value)
  | .found _ value => (.OK, value)
  | .absent _ => (.KEY_NOT_EXIST, "")

/-- The event is one that the entry may produce. -/
def Fits : Entry → Event → Prop
  | .write e, .write w => w.mKey = e.key
  | .read e, .read r => r.mKey = e.key ∧ (r.mIsNotFound → r.mValue = "")
  | .remove _, .read e => e.mIsNotFound
  | .remove _, .delete _ => True
  | _, _ => False

@[simp] theorem seen_setVersion (version : ℕ) (e : Event) : seen (e.setVersion version) = seen e := by
  cases e <;> rfl

theorem Fits.setVersion {entry : Entry} {e : Event} (h : Fits entry e) (version : ℕ) :
    Fits entry (e.setVersion version) := by
  cases entry <;> cases e <;> exact h

/-- The command of its own that an entry corresponds to. -/
def asCommand (isMetaReturned : Bool) : Entry → Option Command
  | .write e => some (KVPutCommand e)
  | .read e => some (KVGetCommand { entry := e, isMetaReturned := isMetaReturned })
  | .remove e => some (KVDeleteCommand { entry := e, returnValue := true })
  | .unset => none

/-- One entry as a command of its own, with its events and results. -/
def alone (isMetaReturned : Bool) (entry : Entry) (p : Processor) :
    Option (List Event × List Result × Processor) := do
  let c ← asCommand isMetaReturned entry
  let (r, _) ← c.execute.run Stores.answer p.stores
  let (out, q) ← doExecute p c
  return (r.events, out.response.results, q)

def runAlone (isMetaReturned : Bool) : List Entry → Processor →
    Option (List Event × List Result × Processor)
  | [], p => some ([], [], p)
  | entry :: entries, p => do
    let (events, results, p') ← alone isMetaReturned entry p
    let (events', results', q) ← runAlone isMetaReturned entries p'
    return (events ++ events', results ++ results', q)

/-- What executing an entry alone comes to: one event, shown in the result and applied under the
next version to the stores as the reads of the entry have left them. -/
structure AloneStep (isMetaReturned : Bool) (entry : Entry) (p : Processor) (e : Event) (s : Stores)
    (results : List Result) (q : Processor) : Prop where
  run : alone isMetaReturned entry p = some ([e], results, q)
  fits : Fits entry e
  pending : Pending e
  db : s.db = p.stores.db
  results : results.map shown = [shownFor (seen e)]
  stores : q.stores = { s with mem := (e.setVersion p.versions.mNextVersion).apply s.mem }
  versions : q.versions.mNextVersion =
    if isNonRead e then VersionStore.successor p.versions.mNextVersion else p.versions.mNextVersion

theorem AloneStep.db_eq {isMetaReturned : Bool} {entry : Entry} {p q : Processor} {e : Event} {s : Stores}
    {results : List Result} (h : AloneStep isMetaReturned entry p e s results q) :
    q.stores.db = p.stores.db := by
  rw [h.stores]
  exact h.db

theorem alone_of_doExecute {isMetaReturned : Bool} {entry : Entry} {p q : Processor} {c : Command}
    {r : ExecResult} {s : Stores} {out : Outcome} (hc : asCommand isMetaReturned entry = some c)
    (hrun : c.execute.run Stores.answer p.stores = some (r, s)) (hdo : doExecute p c = some (out, q)) :
    alone isMetaReturned entry p = some (r.events, out.response.results, q) := by
  simp [alone, hc, hrun, hdo]

theorem aloneStep_of_run {isMetaReturned : Bool} (entry : Entry) {p : Processor} {c : Command}
    {status : Status} {e : Event} {s : Stores} {keys : List KeyType}
    (hc : asCommand isMetaReturned entry = some c) (hkeys : c.getTargetKeys = some keys)
    (hrun : c.execute.run Stores.answer p.stores = some ({ status := status, events := [e] }, s))
    (hstatus : status.isOK ∨ status.isNotFound) (hfits : Fits entry e) (hp : Pending e)
    (hevicts : c.evicts = none) (hdb : s.db = p.stores.db)
    (hresp : ∀ version, ∃ response,
      c.initSuccessResponse p.versions.mMaxVersion [] [e.setVersion version] = some response ∧
        response.results.map shown = [shownFor (seen e)]) :
    ∃ results q, AloneStep isMetaReturned entry p e s results q := by
  have hok : hasFailed { status := status, events := [e] } = false := by
    rcases hstatus with h | h <;> simp [hasFailed, h]
  have hpending : ∀ f ∈ [e], Pending f := by simpa using hp
  cases hn : isNonRead e with
  | true =>
    obtain ⟨response, hr, hshown⟩ := hresp p.versions.mNextVersion
    have hdo := doExecute_persist hkeys hrun hok hpending (by simp [hn]) hr
    refine ⟨response.results, _, ⟨alone_of_doExecute hc hrun hdo, hfits, hp, hdb, hshown, ?_, by rw [hn]; rfl⟩⟩
    simp [Command.finish, hevicts, Event.applyAll]
  | false =>
    obtain ⟨response, hr, hshown⟩ := hresp kInvalidVersion
    rw [Event.setVersion_of_version hp.1] at hr
    have hdo := doExecute_replyAsync hkeys hrun hok hpending (by simp [hn]) hr
    obtain ⟨heff, heff'⟩ := effect_setVersion_of_not_isNonRead hp hn p.versions.mNextVersion
    refine ⟨response.results, _, ⟨alone_of_doExecute hc hrun hdo, hfits, hp, hdb, hshown, ?_, by rw [hn]; rfl⟩⟩
    simp [Command.finish, hevicts, Event.applyAll, InMemoryKVStore.apply_of_effect_none heff,
      InMemoryKVStore.apply_of_effect_none heff']

/-- The write that a put of the entry amounts to, given the meta that the key has. -/
def putEvent (now : ℕ) (r : Status × Meta) (e : WriteEntry) : WriteEvent :=
  newWriteEvent e (settledTTL now r e).1 (settledTTL now r e).2 now now

/-- The stores after a read of the key. -/
def afterRead (s : Stores) (key : KeyType) : Stores :=
  { s with mem := (s.mem.readKV s.db s.now key {}).2 }

/-- What a read with the result `r` shows. -/
def seenRead (key : KeyType) (r : Status × ReadOut) : Seen :=
  if r.1.isOK then .found key r.2.value else .absent key

/-- The event of a read of the key with the result `r`. -/
def IsReadEvent (key : KeyType) (r : Status × ReadOut) (e : Event) : Prop :=
  (r.1.isOK ∧ ∃ updateTime udfMeta, e = foundEvent key r.2 updateTime udfMeta) ∨
    (r.1.isOK = false ∧ e = notFoundEvent key r.2)

theorem IsReadEvent.seen_eq {key : KeyType} {r : Status × ReadOut} {e : Event} (h : IsReadEvent key r e) :
    seen e = seenRead key r := by
  rcases h with ⟨hok, updateTime, udfMeta, rfl⟩ | ⟨hnok, rfl⟩
  · simp [seen, foundEvent, seenRead, hok]
  · simp [seen, notFoundEvent, seenRead, hnok]

/-- The read has found the key under the version that the removal asks for. -/
def Hits (e : RemoveEntry) (r : Status × ReadOut) : Prop :=
  r.1.isOK ∧ (e.version = kInvalidVersion ∨ e.version = r.2.version)

instance (e : RemoveEntry) (r : Status × ReadOut) : Decidable (Hits e r) :=
  inferInstanceAs (Decidable (_ ∧ _))

/-- What a removal shows after a read with the result `r`. -/
def seenRemoval (e : RemoveEntry) (r : Status × ReadOut) : Seen :=
  if Hits e r then .removed e.key r.2.value else .absent e.key

section Runs

variable {s : Stores}

theorem readMeta_ok_or_notFound (hdb : s.db.Healthy) (key : KeyType) :
    (s.readMeta key).1.isOK ∨ (s.readMeta key).1.isNotFound := by
  unfold Stores.readMeta InMemoryKVStore.readMeta RocksDBKVStore.readMeta
  simp only [hdb.noError key]
  split
  · split
    · simp
    · rename_i r hr
      rw [Record.parseMeta, if_pos (hdb.readable key r hr)]
      simp
  · simp

theorem readKV_ok_or_notFound (hdb : s.db.Healthy) (key : KeyType) :
    (s.readKV key).1 = .ok ∨
      (s.readKV key).1 = .notFound (key ++ " not found") ∧ (s.readKV key).2.value = "" := by
  unfold Stores.readKV InMemoryKVStore.readKV RocksDBKVStore.readKV
  simp only [hdb.noError key]
  split
  · split
    · exact .inr ⟨rfl, rfl⟩
    · split
      · exact .inr ⟨rfl, rfl⟩
      · split_ifs
        · exact .inr ⟨rfl, rfl⟩
        · exact .inl rfl
  · split_ifs
    · exact .inr ⟨rfl, rfl⟩
    · exact .inl rfl

theorem run_fixTTL_of_healthy (hdb : s.db.Healthy) (e : WriteEntry) :
    (fixTTL e.key e.enableTTL (if e.enableTTL then e.ttl else INFINITE_TTL)).run Stores.answer s =
      some (.ok (settledTTL s.now (s.readMeta e.key) e), s) := by
  have hok : ¬ Failed (s.readMeta e.key).1 :=
    (readMeta_ok_or_notFound hdb e.key).elim not_failed_of_isOK not_failed_of_isNotFound
  rw [run_fixTTL, if_neg fun h => hok h.2]

theorem run_readKV (key : KeyType) :
    (readKV key {}).run Stores.answer s = some (s.readKV key, afterRead s key) := rfl

theorem run_newReadEvent (isMetaReturned : Bool) (key : KeyType) (out : ReadOut) :
    ∃ updateTime udfMeta, (newReadEvent false isMetaReturned key out).run Stores.answer s =
      some (foundEvent key out updateTime udfMeta, s) := by
  cases isMetaReturned with
  | false => exact ⟨_, _, rfl⟩
  | true =>
    have hmeta : (readMetaFrom false key).run Stores.answer s = some (s.readMeta key, s) := rfl
    simp only [newReadEvent, if_true, Program.run_bind, hmeta, Option.bind_some]
    split
    · split_ifs <;> exact ⟨_, _, rfl⟩
    · exact ⟨_, _, rfl⟩

end Runs

section Steps

variable {p : Processor} (isMetaReturned : Bool)

theorem aloneStep_write (hdb : p.stores.db.Healthy) (e : WriteEntry) :
    ∃ results q, AloneStep isMetaReturned (.write e) p
      (.write (putEvent p.stores.now (p.stores.readMeta e.key) e)) p.stores results q := by
  have hrun : (KVPutCommand.execute e).run Stores.answer p.stores =
      some (⟨.ok, [.write (putEvent p.stores.now (p.stores.readMeta e.key) e)], []⟩, p.stores) := by
    rw [KVPutCommand.execute, Program.run_bind, run_fixTTL_of_healthy hdb]
    rfl
  exact aloneStep_of_run (.write e) rfl rfl hrun (.inl rfl) rfl ⟨rfl, by simp⟩ rfl rfl
    fun version => ⟨_, rfl, rfl⟩

theorem aloneStep_read (hdb : p.stores.db.Healthy) (e : ReadEntry) :
    ∃ event results q, AloneStep isMetaReturned (.read e) p event (afterRead p.stores e.key) results q ∧
      IsReadEvent e.key (p.stores.readKV e.key) event := by
  have hread : (readKVFrom false e.key {}).run Stores.answer p.stores =
      some (p.stores.readKV e.key, afterRead p.stores e.key) := rfl
  rcases readKV_ok_or_notFound hdb e.key with hok | ⟨hnf, hvalue⟩
  · obtain ⟨updateTime, udfMeta, hevent⟩ := run_newReadEvent (s := afterRead p.stores e.key)
      isMetaReturned e.key (p.stores.readKV e.key).2
    have hrun : (KVGetCommand.execute { entry := e, isMetaReturned := isMetaReturned }).run
        Stores.answer p.stores =
        some (⟨.ok, [foundEvent e.key (p.stores.readKV e.key).2 updateTime udfMeta], []⟩,
          afterRead p.stores e.key) := by
      simp [KVGetCommand.execute, hread, hok, hevent]
    have hstep := aloneStep_of_run (.read e) rfl rfl hrun (.inl rfl) ⟨rfl, by simp⟩
      ⟨rfl, by simp [foundEvent]⟩ rfl rfl fun version => ⟨_, rfl, ?_⟩
    · obtain ⟨results, q, hstep⟩ := hstep
      exact ⟨_, results, q, hstep, .inl ⟨by simp [hok], updateTime, udfMeta, rfl⟩⟩
    · cases isMetaReturned <;> rfl
  · have hrun : (KVGetCommand.execute { entry := e, isMetaReturned := isMetaReturned }).run
        Stores.answer p.stores =
        some (⟨(p.stores.readKV e.key).1, [notFoundEvent e.key (p.stores.readKV e.key).2], []⟩,
          afterRead p.stores e.key) := by
      simp [KVGetCommand.execute, hread, hnf]
    obtain ⟨results, q, hstep⟩ := aloneStep_of_run (.read e) rfl rfl hrun
      (.inr (by simp [hnf])) ⟨rfl, fun _ => hvalue⟩ ⟨rfl, by simp [notFoundEvent]⟩ rfl rfl
      fun version => ⟨_, rfl, by simp [ReadEvent.result, shown, hvalue]; rfl⟩
    exact ⟨_, results, q, hstep, .inr ⟨by simp [hnf], rfl⟩⟩

theorem seen_removeEvent {e : RemoveEntry} {r : Status × ReadOut} (hok : r.1.isOK) :
    seen (removeEvent e r.2 r.2.value) = seenRemoval e r := by
  unfold removeEvent seenRemoval
  by_cases hhit : Hits e r
  · rw [if_neg (by rintro ⟨hne, hne'⟩; exact hhit.2.elim hne hne'), if_pos hhit]
    rfl
  · have hmiss : e.version ≠ kInvalidVersion ∧ e.version ≠ r.2.version :=
      ⟨fun h => hhit ⟨hok, .inl h⟩, fun h => hhit ⟨hok, .inr h⟩⟩
    rw [if_pos hmiss, if_neg hhit]
    rfl

theorem fits_removeEvent (e : RemoveEntry) (out : ReadOut) (value : ValueType) :
    Fits (.remove e) (removeEvent e out value) ∧ Pending (removeEvent e out value) := by
  unfold removeEvent
  split_ifs
  · exact ⟨rfl, rfl, by simp [notFoundEvent]⟩
  · exact ⟨trivial, rfl, by simp⟩

/-- The event of a removal after a read with the result `r`. -/
def removalEvent (e : RemoveEntry) (r : Status × ReadOut) : Event :=
  if r.1.isOK then removeEvent e r.2 r.2.value else notFoundEvent e.key r.2

theorem seen_removalEvent (e : RemoveEntry) (r : Status × ReadOut) :
    seen (removalEvent e r) = seenRemoval e r := by
  unfold removalEvent
  split_ifs with hok
  · exact seen_removeEvent hok
  · simp [seen, notFoundEvent, seenRemoval, Hits, hok]

theorem fits_removalEvent (e : RemoveEntry) (r : Status × ReadOut) :
    Fits (.remove e) (removalEvent e r) ∧ Pending (removalEvent e r) := by
  unfold removalEvent
  split_ifs
  · exact fits_removeEvent e _ _
  · exact ⟨rfl, rfl, by simp [notFoundEvent]⟩

theorem initSuccessResponse_delete {e : RemoveEntry} {event : Event} (hfits : Fits (.remove e) event)
    (curMaxVersion version : ℕ) : ∃ response,
      KVDeleteCommand.initSuccessResponse curMaxVersion [event.setVersion version] = some response ∧
        response.results.map shown = [shownFor (seen event)] := by
  cases event with
  | read r =>
    have hnf : r.mIsNotFound = true := hfits
    refine ⟨_, if_pos hnf, ?_⟩
    simp [shown, shownFor, seen, hnf]
  | delete d => exact ⟨_, rfl, rfl⟩
  | write w | importKV i => cases hfits

theorem aloneStep_remove (hdb : p.stores.db.Healthy) (e : RemoveEntry) :
    ∃ results q, AloneStep isMetaReturned (.remove e) p (removalEvent e (p.stores.readKV e.key))
      (afterRead p.stores e.key) results q := by
  have hrun : (KVDeleteCommand.execute { entry := e, returnValue := true }).run Stores.answer p.stores =
      some (⟨(p.stores.readKV e.key).1, [removalEvent e (p.stores.readKV e.key)], []⟩,
        afterRead p.stores e.key) := by
    rcases readKV_ok_or_notFound hdb e.key with hok | ⟨hnf, -⟩
    · simp [KVDeleteCommand.execute, removalEvent, run_readKV, hok]
    · simp [KVDeleteCommand.execute, removalEvent, run_readKV, hnf]
  have hstatus : (p.stores.readKV e.key).1.isOK ∨ (p.stores.readKV e.key).1.isNotFound := by
    rcases readKV_ok_or_notFound hdb e.key with hok | ⟨hnf, -⟩
    · simp [hok]
    · simp [hnf]
  obtain ⟨hfits, hpending⟩ := fits_removalEvent e (p.stores.readKV e.key)
  exact aloneStep_of_run (.remove e) rfl rfl hrun hstatus hfits hpending rfl rfl
    fun version => initSuccessResponse_delete hfits _ version

end Steps

end Goblin.Execution
