import Goblin.Execution.Import
import Goblin.Execution.KVEngine

/-! The ttl of a write: which deadline a command gives to a record, and how long the stores then show it. -/
namespace Goblin.Execution

open Model Store Lib KVTransCommand List

/-- What a generate command is asked to write; it takes over the ttl. -/
def generated (kv : KeyType × ValueType) : WriteEntry := { key := kv.1, value := kv.2, enableTTL := true }

/-- The command, run on the stores `s`, executes the write `e`: it finds the stores `t` and the events `before` that
the command has made up to then, and adds the event `ev` to them. -/
inductive Writes (s : Stores) : Command → WriteEntry → Stores → List Event → Event → Prop
  | put {e : WriteEntry} {r : ExecResult} {s' : Stores} {ev : Event}
      (hrun : (KVPutCommand e).execute.run Stores.answer s = some (r, s')) (hev : r.events = [ev]) :
      Writes s (KVPutCommand e) e s [] ev
  | importKV {e : ImportEntry} {r : ExecResult} {s' : Stores} {ev : Event}
      (hrun : (KVImportCommand e).execute.run Stores.answer s = some (r, s')) (hev : r.events = [ev]) :
      Writes s (KVImportCommand e) e.toWriteEntry s [] ev
  | trans {req : TransRequest} {cond : CondState} {curTime : ℕ} {e : WriteEntry} {after : List Entry}
      {st st' : LoopState} {t t' : Stores} {ev : Event}
      (hreached : Reached Stores.answer req cond curTime s (.write e) after st t)
      (hrun : (execEntry req cond curTime st (.write e)).run Stores.answer t = some (st', t'))
      (hev : st'.events = st.events ++ [ev]) : Writes s (KVTransCommand req) e t st.events ev
  | generate {req : GenerateRequest} {t t' : Stores} {r : ExecResult} {i : ℕ} {kv : KeyType × ValueType} {ev : Event}
      (hreads : (KVGenerateCommand.checkReads req.kvsToRead).run Stores.answer s = some (.ok (), t))
      (hrun : (KVGenerateCommand.writes req.kvsToWrite []).run Stores.answer t = some (r, t'))
      (hkv : req.kvsToWrite[i]? = some kv) (hev : r.events[i]? = some ev) :
      Writes s (KVGenerateCommand req) (generated kv) t (r.events.take i) ev

/-- The record is what the entry asks for in the stores that it finds. -/
structure WrittenIn (t : Stores) (e : WriteEntry) (key : KeyType) (r : Record) : Prop where
  key : e.key = key
  value : r.value = e.value
  ttl : r.ttl = (settledTTL t.now (t.readMeta e.key) e).2
  deadline : r.deadline = if r.ttl = INFINITE_TTL then NEVER_EXPIRE else addDeadline r.ttl t.now

section Written

variable {s t : Stores} {c : Command} {e : WriteEntry} {before : List Event} {ev : Event} {key : KeyType} {r : Record}

theorem settledTTL_fst (now : ℕ) (r : Status × Meta) (e : WriteEntry) :
    (settledTTL now r e).1 = true ↔ (settledTTL now r e).2 ≠ INFINITE_TTL := by
  unfold settledTTL
  by_cases henable : e.enableTTL = true
  · rw [if_pos henable]
    by_cases httl : e.ttl = INFINITE_TTL
    · rw [if_pos httl]
      unfold keptTTL
      by_cases hkept : r.1.isOK = true ∧ r.2.ttl ≠ INFINITE_TTL ∧ r.2.deadline > now
      · rw [if_pos hkept]
        exact ⟨fun _ => hkept.2.1, fun _ => rfl⟩
      · rw [if_neg hkept]
        exact ⟨fun h => Bool.noConfusion h, fun h => absurd rfl h⟩
    · rw [if_neg httl]
      exact ⟨fun _ => httl, fun _ => rfl⟩
  · rw [if_neg henable]
    exact ⟨fun h => Bool.noConfusion h, fun h => absurd rfl h⟩

theorem writtenIn_record {w : WriteEvent} (hkey : w.mKey = e.key) (hvalue : w.mValue = e.value)
    (henable : w.mEnableTTL = (settledTTL t.now (t.readMeta e.key) e).1)
    (httl : w.mTTL = (settledTTL t.now (t.readMeta e.key) e).2)
    (hdeadline : w.mDeadline = if w.mEnableTTL then addDeadline w.mTTL t.now else NEVER_EXPIRE) :
    WrittenIn t e w.mKey w.record := by
  have hflag := settledTTL_fst t.now (t.readMeta e.key) e
  refine ⟨hkey.symm, hvalue, ?_, ?_⟩
  · unfold WriteEvent.record
    dsimp only
    rw [henable, httl]
    split_ifs with h
    · rfl
    · by_contra hne
      exact h (hflag.mpr (Ne.symm hne))
  · unfold WriteEvent.record
    dsimp only
    rw [hdeadline, henable, httl]
    by_cases h : (settledTTL t.now (t.readMeta e.key) e).1 = true
    · rw [if_pos h, if_pos h, if_pos h, if_neg (hflag.mp h)]
    · rw [if_neg h, if_neg h, if_pos rfl]

theorem writtenIn_newWriteEvent {x : Bool × ℕ} (hx : x = settledTTL t.now (t.readMeta e.key) e) {updateTime : ℕ}
    (heffect : (Event.write (newWriteEvent e x.1 x.2 t.now updateTime)).effect = some (key, some r)) :
    WrittenIn t e key r := by
  cases heffect
  subst hx
  exact writtenIn_record rfl rfl rfl rfl rfl

theorem written_put {result : ExecResult} {s' : Stores}
    (hrun : (KVPutCommand e).execute.run Stores.answer s = some (result, s')) (hev : result.events = [ev])
    (heffect : ev.effect = some (key, some r)) : WrittenIn s e key r := by
  obtain ⟨x, t, hfix, hrest⟩ := Program.run_bind_eq_some.mp hrun
  rw [run_fixTTL] at hfix
  split_ifs at hfix
  · cases hfix
    cases hrest
    cases hev
  · cases hfix
    cases hrest
    cases hev
    exact writtenIn_newWriteEvent rfl heffect

theorem written_import {e : ImportEntry} {result : ExecResult} {s' : Stores}
    (hrun : (KVImportCommand e).execute.run Stores.answer s = some (result, s')) (hev : result.events = [ev])
    (heffect : ev.effect = some (key, some r)) : WrittenIn s e.toWriteEntry key r := by
  obtain ⟨x, t, hfix, hrest⟩ := Program.run_bind_eq_some.mp hrun
  rw [run_fixTTL s e.toWriteEntry] at hfix
  split_ifs at hfix
  · cases hfix
    cases hrest
    cases hev
  · cases hfix
    cases hrest
    cases hev
    cases heffect
    exact writtenIn_record rfl rfl rfl rfl rfl

theorem written_entry {req : TransRequest} {cond : CondState} {st st' : LoopState} {t' : Stores}
    (hrun : (execEntry req cond t.now st (.write e)).run Stores.answer t = some (st', t'))
    (hev : st'.events = st.events ++ [ev]) (heffect : ev.effect = some (key, some r)) : WrittenIn t e key r := by
  rw [execEntry, writeEntry] at hrun
  by_cases hignored : e.key ∈ cond.ignoredUdfUintKeys
  · rw [if_pos hignored] at hrun
    cases hrun
    cases append_cancel_left hev
    cases heffect
  rw [if_neg hignored] at hrun
  obtain ⟨x, u, hfix, hrest⟩ := Program.run_bind_eq_some.mp hrun
  rw [run_fixTTL] at hfix
  have hfail (status : Status) (hst : (st.fail status) = st') : WrittenIn t e key r := by
    subst hst
    have hlen := congrArg List.length hev
    simp [LoopState.fail] at hlen
  have hput {x : Bool × ℕ} (hx : x = settledTTL t.now (t.readMeta e.key) e)
      (h : (putEntry t.now st e x.1 x.2).run Stores.answer t = some (st', t')) : WrittenIn t e key r := by
    cases h
    cases append_cancel_left hev
    exact writtenIn_newWriteEvent hx heffect
  split_ifs at hfix
  · cases hfix
    cases hrest
    exact hfail _ rfl
  · cases hfix
    dsimp only at hrest
    split at hrest
    · exact hput rfl hrest
    · split at hrest
      · cases hrest
      · cases hrest
        exact hfail _ rfl
      · exact hput rfl hrest

theorem settledTTL_generated (now : ℕ) (m : Status × Meta) (kv : KeyType × ValueType) :
    (settledTTL now m (generated kv)).2 =
      if m.1.isOK ∧ m.2.ttl ≠ INFINITE_TTL ∧ m.2.deadline > now then m.2.ttl else INFINITE_TTL := by
  have henable : (generated kv).enableTTL = true := rfl
  have httl : (generated kv).ttl = INFINITE_TTL := rfl
  rw [settledTTL, if_pos henable, if_pos httl, keptTTL]
  split_ifs <;> rfl

theorem written_generated {m : Status × Meta} {value : ValueType} {k : KeyType} {now curTime : ℕ}
    (hm : m = t.readMeta k) (hnow : now = t.now) (hcur : curTime = t.now)
    (heffect : (Event.write (if (if m.1.isOK ∧ m.2.ttl ≠ INFINITE_TTL ∧ m.2.deadline > now then m.2.ttl
          else INFINITE_TTL) ≠ INFINITE_TTL then
        { mKey := k, mValue := value, mEnableTTL := true,
          mTTL := if m.1.isOK ∧ m.2.ttl ≠ INFINITE_TTL ∧ m.2.deadline > now then m.2.ttl else INFINITE_TTL,
          mDeadline := addDeadline (if m.1.isOK ∧ m.2.ttl ≠ INFINITE_TTL ∧ m.2.deadline > now then m.2.ttl
            else INFINITE_TTL) curTime }
      else { mKey := k, mValue := value })).effect = some (key, some r)) :
    WrittenIn t (generated (k, value)) key r := by
  subst hnow hcur
  rw [← settledTTL_generated t.now m (k, value)] at heffect
  have hflag := settledTTL_fst t.now m (generated (k, value))
  by_cases httl : (settledTTL t.now m (generated (k, value))).2 ≠ INFINITE_TTL
  · rw [if_pos httl] at heffect
    cases heffect
    subst hm
    exact writtenIn_record rfl rfl (hflag.mpr httl).symm rfl rfl
  · rw [if_neg httl] at heffect
    cases heffect
    subst hm
    have hdisabled := Bool.eq_false_iff.mpr fun h => httl (hflag.mp h)
    exact writtenIn_record rfl rfl hdisabled.symm (not_not.mp httl).symm rfl

/-- Induction on the values that are left. -/
theorem written_writes {kvs : List (KeyType × ValueType)} {events : List Event} {result : ExecResult} {t' : Stores}
    (hrun : (KVGenerateCommand.writes kvs events).run Stores.answer t = some (result, t')) :
    ∃ more, result.events = events ++ more ∧ ∀ (i : ℕ) kv (ev : Event), kvs[i]? = some kv → more[i]? = some ev →
      ∀ key r, ev.effect = some (key, some r) → WrittenIn t (generated kv) key r := by
  induction kvs generalizing events with
  | nil =>
    cases hrun
    exact ⟨[], by simp, fun i kv ev hkv => by simp at hkv⟩
  | cons kv kvs ih =>
    obtain ⟨key, value⟩ := kv
    obtain ⟨m, u, hm, hrest⟩ := Program.run_bind_eq_some.mp hrun
    cases hm
    dsimp only at hrest
    split_ifs at hrest with hfailed
    · cases hrest
      exact ⟨[], by simp, fun i kv ev _ hev => by simp at hev⟩
    obtain ⟨now, u, hnow, hrest⟩ := Program.run_bind_eq_some.mp hrest
    cases hnow
    obtain ⟨curTime, u, hclock, hrest⟩ := Program.run_bind_eq_some.mp hrest
    cases hclock
    obtain ⟨more, hevents, hmore⟩ := ih hrest
    refine ⟨_ :: more, hevents.trans (append_assoc ..), fun i kv ev hkv hev => ?_⟩
    cases i with
    | succ i => exact hmore i kv ev hkv hev
    | zero =>
      cases hkv
      cases hev
      intro k r heffect
      exact written_generated rfl rfl rfl heffect

/-- What one answer does to the stores, in a reflexive and transitive relation, the command does before the write. -/
theorem Writes.rel {T : Stores → Stores → Prop} (hrefl : ∀ s, T s s) (htrans : ∀ s t u, T s t → T t u → T s u)
    (hstep : ∀ s o, T s (Stores.answer s o).2) (h : Writes s c e t before ev) : T s t := by
  cases h with
  | put | importKV => exact hrefl s
  | trans hreached => exact hreached.rel hrefl htrans hstep
  | generate hreads => exact Program.run_rel hrefl htrans hstep hreads

theorem answer_now (s : Stores) (o : StoreOp) : (s.answer o).2.now = s.now := by
  cases o <;> rfl

theorem now_of_run {α : Type} {p : StoreProg α} {a : α} (h : p.run Stores.answer s = some (a, t)) : t.now = s.now :=
  Program.run_rel (T := fun s t : Stores => t.now = s.now) (fun _ => rfl) (fun _ _ _ hst htu => htu.trans hst)
    answer_now h

theorem Writes.now_eq (h : Writes s c e t before ev) : t.now = s.now :=
  h.rel (T := fun s t : Stores => t.now = s.now) (fun _ => rfl) (fun _ _ _ hst htu => htu.trans hst) answer_now

theorem Writes.written (h : Writes s c e t before ev) (heffect : ev.effect = some (key, some r)) :
    WrittenIn t e key r := by
  cases h with
  | put hrun hev => exact written_put hrun hev heffect
  | importKV hrun hev => exact written_import hrun hev heffect
  | trans hreached hrun hev =>
    have hclock := (Writes.trans hreached hrun hev).now_eq
    obtain ⟨status, s₁, hpre, -, rfl, -⟩ := hreached
    have hnow : (s₁.answer .secondsSinceEpoch).1 = t.now := (now_of_run hpre).trans hclock.symm
    rw [hnow] at hrun
    exact written_entry hrun hev heffect
  | generate hreads hrun hkv hev =>
    obtain ⟨more, hevents, hmore⟩ := written_writes hrun
    rw [hevents] at hev
    exact hmore _ _ ev hkv hev key r heffect

end Written

section Reads

/-- RocksDB reads the key and does not find it. -/
def Misses (db : RocksDBKVStore) (now : ℕ) (key : KeyType) : Prop :=
  ∃ r, db.readRaw now key {} = some r ∧ r.1.isNotFound = true

variable {t ttl now : ℕ} {key : KeyType} {value : ValueType} {mem : InMemoryKVStore} {delegate db : RocksDBKVStore}

theorem isTimeOut_later {deadline later : ℕ} (h : isTimeOut now deadline ttl = true) (hle : now ≤ later) :
    isTimeOut later deadline ttl = true := by
  unfold isTimeOut at h ⊢
  simp only [Bool.and_eq_true, decide_eq_true_eq] at h ⊢
  exact ⟨h.1, h.2.trans hle⟩

theorem parseValue_later {r : Record} {x : Status × ReadOut} (h : r.parseValue now key {} = some x)
    (hx : x.1.isNotFound = true) {later : ℕ} (hle : now ≤ later) : r.parseValue later key {} = some x := by
  unfold Record.parseValue at h ⊢
  have hone {deadline ttl : ℕ} {missing found : Status × ReadOut} (hfound : found.1.isNotFound = false)
      (h : (if isTimeOut now deadline ttl then some missing else some found) = some x) :
      (if isTimeOut later deadline ttl then some missing else some found) = some x := by
    by_cases hout : isTimeOut now deadline ttl = true
    · rw [if_pos hout] at h
      rw [if_pos (isTimeOut_later hout hle), h]
    · rw [if_neg hout] at h
      cases h
      cases hfound.symm.trans hx
  by_cases hreadable : r.Readable
  · rw [if_pos hreadable] at h ⊢
    exact hone rfl h
  · rw [if_neg hreadable] at h ⊢
    split at h
    · exact hone rfl h
    · cases h

theorem Misses.later (h : Misses delegate now key) {later : ℕ} (hle : now ≤ later) : Misses delegate later key := by
  obtain ⟨x, hx, hnf⟩ := h
  refine ⟨x, ?_, hnf⟩
  unfold RocksDBKVStore.readRaw at hx ⊢
  cases herror : delegate.mGetError key with
  | some msg =>
    rw [herror] at hx
    cases hx
    cases hnf
  | none =>
    rw [herror] at hx
    cases hr : delegate.mRocksDB key with
    | none =>
      rw [hr] at hx
      exact hx
    | some r =>
      rw [hr] at hx
      exact parseValue_later hx hnf hle

end Reads

end Goblin.Execution
