import Goblin.Command.PrecondExact
import Goblin.Execution.EntryLoop
import Goblin.Execution.Processor

/-! What a transaction that stops with an error leaves behind in the cache. -/
namespace Goblin.Execution

open Model Store Lib KVTransCommand List

/-- Every `readKV` and every `readMeta` is answered alike. -/
def SameAnswers (s t : Stores) : Prop :=
  ∀ key out, (s.mem.readKV s.db s.now key out).1 = (t.mem.readKV t.db t.now key out).1 ∧
    s.readMeta key = t.readMeta key

/-- The removal finds the key under the version it asks for. -/
def Removes (s : Stores) (e : RemoveEntry) : Prop :=
  (s.readKV e.key).1.isOK ∧ (e.version = kInvalidVersion ∨ e.version = (s.readKV e.key).2.version)

/-- The write is refused: its ttl cannot be read, or its user defined meta is not the one of the condition. -/
def WriteFails (s : Stores) (cond : CondState) (e : WriteEntry) : Prop :=
  Reuses e ∧ Failed (s.readMeta e.key).1 ∨
    ∃ m, cond.udfUintKey2Meta e.key = some m ∧ udfMetaIdentical e.udfMeta m = some false

/-- The entry leaves no trace in the cache: a read, an ignored put, a write that fails, or a removal that does not
find its key or finds it in RocksDB only. -/
def Harmless (s : Stores) (cond : CondState) : Entry → Prop
  | .write e => e.key ∈ cond.ignoredUdfUintKeys ∨ WriteFails s cond e
  | .read _ => True
  | .remove e => Removes s e → s.mem.mData e.key = none
  | .unset => True

/-- Every entry that the transaction gets to is harmless in the state it finds. -/
def AllHarmless (s : Stores) (req : TransRequest) : Prop :=
  ∀ cond curTime entry after st t, Reached Stores.answer req cond curTime s entry after st t → Harmless t cond entry

/-- The transaction reads the key through the cache. -/
def ReadsKey (s : Stores) (req : TransRequest) (key : KeyType) : Prop :=
  ∃ out r, (⟨.readKV key out, r⟩ : Call) ∈ (execute req).calls Stores.answer s

/-- RocksDB alone would answer the reads of the key alike. -/
def Flushed (s : Stores) (key : KeyType) : Prop :=
  (∀ out, (s.mem.readKV s.db s.now key out).1 = s.db.readKV s.now key out) ∧ s.readMeta key = s.db.readMeta key

/-- What is read and has timed out in the cache stands in RocksDB as well. -/
def ReadsFlushed (s : Stores) (req : TransRequest) : Prop :=
  ∀ key, ReadsKey s req key → ∀ c, s.mem.mData key = some c → isTimeOut s.now c.deadline c.ttl = true →
    Flushed s key

section Reads

variable {α : Type} {p : StoreProg α} {a : α} {s t : Stores} {key : KeyType}

/-- A run erases exactly the expired cells that it reads. -/
theorem mData_run (hr : p.run Stores.answer s = some (a, t)) (key : KeyType) :
    ((∃ out r, (⟨.readKV key out, r⟩ : Call) ∈ p.calls Stores.answer s) →
      t.mem.mData key = visible s.now (s.mem.mData key)) ∧
    (¬ (∃ out r, (⟨.readKV key out, r⟩ : Call) ∈ p.calls Stores.answer s) → t.mem.mData key = s.mem.mData key) := by
  induction p generalizing s with
  | ret b =>
    cases hr
    refine ⟨?_, fun _ => rfl⟩
    rintro ⟨_, _, h⟩
    cases h
  | abort => cases hr
  | call o next ih =>
    have hvisible (c : Option Cell) : visible s.now (visible s.now c) = visible s.now c := by
      cases hc : visible s.now c with
      | none => rfl
      | some d => exact visible_eq_some.mpr ⟨rfl, (visible_eq_some.mp hc).2⟩
    obtain ⟨hread, hother⟩ := ih (s.answer o).1 hr
    have hnow : (s.answer o).2.now = s.now := (s.swept_answer o).now
    rw [hnow] at hread
    by_cases hrest : ∃ out r, (⟨.readKV key out, r⟩ : Call) ∈ (next (s.answer o).1).calls Stores.answer (s.answer o).2
    · obtain ⟨out, r, hmem⟩ := id hrest
      refine ⟨fun _ => ?_, fun hnot => absurd ⟨out, r, mem_cons_of_mem _ hmem⟩ hnot⟩
      rw [hread hrest]
      cases o with
      | readKV k out =>
        by_cases hk : key = k
        · subst hk
          exact (congrArg (visible s.now) InMemoryKVStore.readKV_state_self).trans (hvisible _)
        · exact congrArg (visible s.now) (InMemoryKVStore.readKV_state_data hk)
      | _ => rfl
    · rw [hother hrest]
      cases o with
      | readKV k out =>
        by_cases hk : key = k
        · subst hk
          exact ⟨fun _ => InMemoryKVStore.readKV_state_self,
            fun hnot => absurd ⟨out, _, mem_cons_self⟩ hnot⟩
        · refine ⟨fun ⟨out', r, hmem⟩ => ?_, fun _ => InMemoryKVStore.readKV_state_data hk⟩
          rcases mem_cons.mp hmem with heq | hmem
          · cases heq
            exact absurd rfl hk
          · exact absurd ⟨out', r, hmem⟩ hrest
      | _ =>
        refine ⟨fun ⟨out', r, hmem⟩ => ?_, fun _ => rfl⟩
        rcases mem_cons.mp hmem with heq | hmem
        · cases heq
        · exact absurd ⟨out', r, hmem⟩ hrest

/-- Stores after reads answer as before exactly if RocksDB answers for the cells that are gone. -/
theorem sameAnswers_swept_iff (h : s.Swept t) :
    SameAnswers s t ↔ ∀ key, t.mem.mData key ≠ s.mem.mData key → Flushed s key := by
  have hgone {key : KeyType} (hne : t.mem.mData key ≠ s.mem.mData key) :
      (∀ out, (t.mem.readKV t.db t.now key out).1 = s.db.readKV s.now key out) ∧
        t.readMeta key = s.db.readMeta key := by
    obtain ⟨hnone, c, hc, -⟩ := (h.data key).resolve_left hne
    have hdeleted : t.mem.mDeletedData key = none := by
      rw [h.deleted]
      exact s.mem.disjoint key (by rw [hc]; rfl)
    rw [Stores.readMeta, InMemoryKVStore.readMeta, hnone, h.db, h.now]
    refine ⟨fun out => ?_, rfl⟩
    rw [InMemoryKVStore.readKV, hnone, hdeleted]
  constructor
  · intro hsame key hne
    exact ⟨fun out => (hsame key out).1.trans ((hgone hne).1 out), (hsame key {}).2.trans (hgone hne).2⟩
  · intro hflushed key out
    by_cases hne : t.mem.mData key = s.mem.mData key
    · rw [h.db, h.now, Stores.readMeta, Stores.readMeta, InMemoryKVStore.readMeta, InMemoryKVStore.readMeta, hne, h.db,
        h.udfMeta]
      exact ⟨InMemoryKVStore.readKV_congr hne.symm (by rw [h.deleted]), rfl⟩
    · exact ⟨((hflushed key hne).1 out).trans ((hgone hne).1 out).symm, (hflushed key hne).2.trans (hgone hne).2.symm⟩

theorem sameAnswers_run_iff {req : TransRequest} {r : ExecResult}
    (hr : (execute req).run Stores.answer s = some (r, t)) : SameAnswers s t ↔ ReadsFlushed s req := by
  rw [sameAnswers_swept_iff (Stores.swept_run hr)]
  refine forall_congr' fun key => ⟨fun h hread c hc hout => h ?_, fun h hne => ?_⟩
  · simp [(mData_run hr key).1 hread, hc, visible, hout]
  · have hread : ReadsKey s req key := by_contra fun hnot => hne ((mData_run hr key).2 hnot)
    obtain ⟨-, c, hc, hout⟩ := ((Stores.swept_run hr).data key).resolve_left hne
    exact h hread c hc hout

end Reads

section Entries

variable {s s' : Stores} {req : TransRequest} {cond : CondState} {curTime : ℕ} {st st' : LoopState}

theorem removeEvent_cases {e : RemoveEntry} (hok : (s.readKV e.key).1.isOK = true) :
    Removes s e ∧ (∃ d : DeleteEvent, removeEvent e (s.readKV e.key).2 (s.readKV e.key).2.value = .delete d ∧
      d.mKey = e.key) ∨
    ¬ Removes s e ∧ (removeEvent e (s.readKV e.key).2 (s.readKV e.key).2.value).effect = none := by
  unfold removeEvent
  by_cases hmiss : e.version ≠ kInvalidVersion ∧ e.version ≠ (s.readKV e.key).2.version
  · rw [if_pos hmiss]
    exact .inr ⟨fun h => h.2.elim hmiss.1 hmiss.2, rfl⟩
  · rw [if_neg hmiss]
    exact .inl ⟨⟨hok, by tauto⟩, _, rfl, rfl⟩

/-- The events that the entries so far have left: those without an effect, and removals of keys that the cache does
not hold. -/
def Traceless (s : Stores) (events : List Event) : Prop :=
  ∀ v ∈ events, v.effect = none ∨ ∃ d, v = .delete d ∧ s.mem.mData d.mKey = none

theorem Traceless.push {events : List Event} (h : Traceless s events) {v : Event} (hv : v.effect = none) :
    Traceless s (events ++ [v]) := by
  intro w hw
  rcases mem_append.mp hw with hw | hw
  · exact h w hw
  · rw [mem_singleton.mp hw]
    exact .inl hv

theorem Traceless.swept {events : List Event} (h : Traceless s events) (hs : s.Swept s') : Traceless s' events := by
  intro v hv
  refine (h v hv).imp_right fun ⟨d, hd, hnone⟩ => ⟨d, hd, ?_⟩
  rcases hs.data d.mKey with heq | ⟨hnone', -⟩
  · exact heq.trans hnone
  · exact hnone'

theorem Traceless.applyAll {events : List Event} (h : Traceless s events) : Event.applyAll s.mem events = s.mem := by
  refine InMemoryKVStore.applyAll_eq_self fun v hv => ?_
  rcases h v hv with heffect | ⟨d, rfl, hnone⟩
  · exact InMemoryKVStore.apply_of_effect_none heffect
  · exact InMemoryKVStore.deleteKV_of_none hnone _

theorem readKV_of_overlayReads {t t' : TemporalKVStore} {key : KeyType} {r : Status × ReadOut} {cs : List Call}
    (h : OverlayReads t key r t' cs) (hfree : Free t key) : t' = t ∧ cs = [⟨.readKV key {}, r⟩] := by
  cases h with
  | deleted hdata hdeleted =>
    rw [hfree.2] at hdeleted
    cases hdeleted
  | store => exact ⟨rfl, rfl⟩
  | lapsed hdata _ | own hdata _ =>
    rw [hfree.1] at hdata
    cases hdata

/-- An entry that is harmless leaves the overlay free and an event without a trace. -/
theorem traceless_execEntry {entry : Entry} (hrun : (execEntry req cond curTime st entry).run Stores.answer s =
      some (st', s')) (hfree : ∀ key, Free st.tempStore key) (hharmless : Harmless s cond entry)
    (hevents : Traceless s st.events) : (∀ key, Free st'.tempStore key) ∧ Traceless s' st'.events := by
  have hswept := hevents.swept (Stores.swept_run hrun)
  have hexecutes : Executes req cond curTime st entry st' _ := executes_of_leads (Program.leads_of_run hrun)
  generalize hcalls : (execEntry req cond curTime st entry).calls Stores.answer s = cs at hexecutes
  have hanswer {key : KeyType} {r : Status × ReadOut} {ds : List Call} (hcs : cs = ⟨.readKV key {}, r⟩ :: ds) :
      r = s.readKV key := Program.answer_of_calls (hcalls.trans hcs)
  cases hexecutes with
  | ignored h => exact ⟨hfree, hswept.push rfl⟩
  | unsettled h hfix => exact ⟨hfree, hswept⟩
  | mismatch h hfix hm hne => exact ⟨hfree, hswept⟩
  | @put e h x ds hfix hsame now =>
    rcases hharmless with hignored | ⟨hreuse, hfailed⟩ | ⟨m, hm, hne⟩
    · exact absurd hignored h
    · cases hfix with
      | asked hno => exact absurd hreuse hno
      | kept _ hm now' =>
        have hmeta := Program.answer_of_calls hcalls
        rw [hmeta] at hm
        exact absurd hfailed hm
    · rw [hsame m hm] at hne
      cases hne
  | missing hread hs => exact ⟨hfree, hswept.push rfl⟩
  | found hread hs hmeta =>
    refine ⟨hfree, hswept.push ?_⟩
    cases hmeta <;> rfl
  | unread hread hs => exact ⟨hfree, hswept⟩
  | absent hread hs =>
    obtain ⟨rfl, -⟩ := readKV_of_overlayReads hread (hfree _)
    exact ⟨hfree, hswept.push rfl⟩
  | @removed e x out t ds hread hs =>
    obtain ⟨rfl, rfl⟩ := readKV_of_overlayReads hread (hfree _)
    have hr := hanswer rfl
    obtain rfl : x = (s.readKV e.key).1 := congrArg Prod.fst hr
    obtain rfl : out = (s.readKV e.key).2 := congrArg Prod.snd hr
    refine ⟨hfree, ?_⟩
    rcases removeEvent_cases hs with ⟨hremoves, d, hd, hkey⟩ | ⟨-, heffect⟩
    · have hnone : s.mem.mData d.mKey = none := hkey ▸ hharmless hremoves
      refine Traceless.swept (fun v hv => ?_) (Stores.swept_run hrun)
      rcases mem_append.mp hv with hv | hv
      · exact hevents v hv
      · rw [mem_singleton.mp hv, hd]
        exact .inr ⟨d, rfl, hnone⟩
    · exact hswept.push heffect
  | lost hread hs =>
    obtain ⟨rfl, -⟩ := readKV_of_overlayReads hread (hfree _)
    exact ⟨hfree, hswept⟩
  | unset => exact ⟨hfree, hswept⟩

theorem traceless_execEntries {entries : List Entry}
    (hrun : (execEntries req cond curTime entries st).run Stores.answer s = some (st', s'))
    (hfree : ∀ key, Free st.tempStore key) (hevents : Traceless s st.events)
    (hharmless : ∀ entry after st₁ t, Reaches Stores.answer req cond curTime entries st s entry after st₁ t →
      Harmless t cond entry) : Traceless s' st'.events := by
  induction entries generalizing st s with
  | nil =>
    cases hrun
    exact hevents
  | cons first rest ih =>
    obtain ⟨st₁, s₁, hone, -, hrest⟩ := run_execEntries_cons hrun
    obtain ⟨hfree₁, hevents₁⟩ := traceless_execEntry hone hfree (hharmless _ _ _ _ (.here ..)) hevents
    rcases hrest with ⟨-, rfl, rfl⟩ | ⟨hgo, hrest⟩
    · exact hevents₁
    · exact ih hrest hfree₁ hevents₁ fun entry after st₂ t h => hharmless _ _ _ _ (.next hone hgo h)

end Entries

theorem traceless_execute {s u : Stores} {req : TransRequest} {r : ExecResult}
    (hrun : (execute req).run Stores.answer s = some (r, u)) (h : AllHarmless s req) : Traceless u r.events := by
  rcases run_execute hrun with ⟨status, cond, -, -, rfl⟩ | ⟨status, cond, s₁, st, hpre, hok, hloop, rfl⟩
  · exact fun v hv => by cases hv
  · refine traceless_execEntries hloop (fun _ => ⟨rfl, rfl⟩) (fun v hv => by cases hv) fun entry after st₁ t hr => ?_
    exact h cond _ entry after st₁ t ⟨status, s₁, hpre, hok, rfl, hr⟩

/-- Every stored version is one that was allocated. -/
def Versioned (s : Stores) : Prop :=
  (∀ key c, s.mem.mData key = some c → c.version ≠ kInvalidVersion) ∧
    ∀ key, (s.db.readMeta key).1.isOK → (s.db.readMeta key).2.version ≠ kInvalidVersion

theorem Versioned.readMeta_ne {s : Stores} (hv : Versioned s) (key : KeyType) (hok : (s.readMeta key).1.isOK) :
    (s.readMeta key).2.version ≠ kInvalidVersion := by
  unfold Stores.readMeta InMemoryKVStore.readMeta at *
  cases hm : s.mem.mData key with
  | some c => exact hv.1 key c hm
  | none =>
    rw [hm] at hok
    exact hv.2 key hok

theorem sets_eq_nil {es : List Event} {keys : List KeyType} {key : KeyType} (hk : key ∉ keys)
    (h : ∀ e ∈ es, e.On keys) : sets Event.effect key es = [] := by
  rw [eq_nil_iff_forall_not_mem]
  intro v hv
  obtain ⟨e, he, heff⟩ := (mem_sets Event.effect).mp hv
  exact hk (h e he key v heff)

section Distinct

variable {s t u : Stores} {req : TransRequest} {cond : CondState} {curTime : ℕ} {st st' : LoopState}

theorem grows_execEntries {entries : List Entry}
    (hr : (execEntries req cond curTime entries st).run Stores.answer s = some (st', t)) :
    Grows (entries.filterMap entryKey) st st' := by
  have hstays : StaysOn (entries.filterMap entryKey) (Grows (entries.filterMap entryKey) st)
      (execEntries req cond curTime entries st) :=
    staysOn_execEntries req cond curTime entries st fun e he key hkey => mem_filterMap.mpr ⟨e, he, hkey⟩
  exact (hstays.run (I := fun _ => True) (fun _ _ _ _ => ⟨trivial, trivial⟩) trivial hr).1

/-- An entry whose key no other entry uses decides alone what happens to that key. -/
theorem run_of_reaches {entries after : List Entry} {entry : Entry} {key : KeyType} {status : Status}
    (hnodup : (entries.filterMap entryKey).Nodup) (hkey : entryKey entry = some key)
    (hreach : Reaches Stores.answer req cond curTime entries { status := status } s entry after st t)
    (hr : (execEntries req cond curTime entries { status := status }).run Stores.answer s = some (st', u)) :
    ∃ st₁ t₁, (execEntry req cond curTime st entry).run Stores.answer t = some (st₁, t₁) ∧ t.Swept u ∧
      Free st.tempStore key ∧ sets Event.effect key st.events = [] ∧
      sets Event.effect key st'.events = sets Event.effect key st₁.events := by
  obtain ⟨hgo, before, rfl, hbefore⟩ := hreach.split rfl
  rw [filterMap_append, filterMap_cons, hkey, nodup_middle] at hnodup
  obtain ⟨hb, ha⟩ : key ∉ before.filterMap entryKey ∧ key ∉ after.filterMap entryKey := by
    simpa using (nodup_cons.mp hnodup).1
  rw [execEntries_append _ _ rfl] at hr
  obtain ⟨st₀, t₀, hbefore', hr⟩ := Program.run_bind_eq_some.mp hr
  cases hbefore.symm.trans hbefore'
  rw [hgo, if_neg Bool.false_ne_true] at hr
  obtain ⟨st₁, t₁, hone, -, hrest⟩ := run_execEntries_cons hr
  have hgrows := grows_execEntries hbefore
  obtain ⟨es, hes, hon⟩ := hgrows.events
  refine ⟨st₁, t₁, hone, Stores.swept_run hr, hgrows.overlay key hb, ?_, ?_⟩
  · rw [hes]
    exact sets_eq_nil hb hon
  · rcases hrest with ⟨-, rfl, -⟩ | ⟨-, hrest⟩
    · rfl
    · obtain ⟨fs, hfs, hon'⟩ := (grows_execEntries hrest).events
      rw [hfs, sets_append, sets_eq_nil ha hon', append_nil]

/-- A write that is executed leaves one event, without a version. -/
theorem sets_write {e : WriteEntry} (hrun : (execEntry req cond curTime st (.write e)).run Stores.answer s =
      some (st', t)) (hnot : ¬ Harmless s cond (.write e)) (hnil : sets Event.effect e.key st.events = []) :
    ∃ r : Record, r.version = kInvalidVersion ∧ sets Event.effect e.key st'.events = [some r] := by
  obtain ⟨hignored, hfails⟩ := not_or.mp hnot
  have hexecutes : Executes req cond curTime st (.write e) st' _ := executes_of_leads (Program.leads_of_run hrun)
  generalize hcalls : (execEntry req cond curTime st (.write e)).calls Stores.answer s = cs at hexecutes
  cases hexecutes with
  | ignored h => exact absurd h hignored
  | unsettled h hfix =>
    cases hfix with
    | failed hreuse hm now =>
      rw [Program.answer_of_calls hcalls] at hm
      exact absurd (.inl ⟨hreuse, hm⟩) hfails
  | mismatch h hfix hm hne => exact absurd (.inr ⟨_, hm, hne⟩) hfails
  | @put _ h x ds hfix hsame now =>
    refine ⟨(newWriteEvent e x.1 x.2 curTime now).record, rfl, ?_⟩
    change sets Event.effect e.key (st.events ++ [.write (newWriteEvent e x.1 x.2 curTime now)]) = _
    rw [sets_append, hnil]
    simp [sets, Event.effect, newWriteEvent]

/-- A removal that finds its key leaves the event of a removal. -/
theorem sets_remove {e : RemoveEntry} (hrun : (execEntry req cond curTime st (.remove e)).run Stores.answer s =
      some (st', t)) (hfree : Free st.tempStore e.key) (hremoves : Removes s e)
    (hnil : sets Event.effect e.key st.events = []) : sets Event.effect e.key st'.events = [none] := by
  have hexecutes : Executes req cond curTime st (.remove e) st' _ := executes_of_leads (Program.leads_of_run hrun)
  generalize hcalls : (execEntry req cond curTime st (.remove e)).calls Stores.answer s = cs at hexecutes
  cases hexecutes with
  | @absent _ x out t' ds hread hs =>
    obtain ⟨-, rfl⟩ := readKV_of_overlayReads hread hfree
    obtain rfl : x = (s.readKV e.key).1 := congrArg Prod.fst (Program.answer_of_calls hcalls)
    have hok := hremoves.1
    simp_all [Status.isOK, Status.isNotFound]
  | @removed _ x out t' ds hread hs =>
    obtain ⟨-, rfl⟩ := readKV_of_overlayReads hread hfree
    have hr := Program.answer_of_calls hcalls
    obtain rfl : x = (s.readKV e.key).1 := congrArg Prod.fst hr
    obtain rfl : out = (s.readKV e.key).2 := congrArg Prod.snd hr
    rcases removeEvent_cases hs with ⟨-, d, hd, hkey⟩ | ⟨hnot, -⟩
    · change sets Event.effect e.key (st.events ++ [removeEvent e (s.readKV e.key).2 (s.readKV e.key).2.value]) = _
      rw [sets_append, hnil, hd]
      simp [sets, Event.effect, hkey]
    · exact absurd hremoves hnot
  | @lost _ x out t' ds hread hs =>
    obtain ⟨-, rfl⟩ := readKV_of_overlayReads hread hfree
    obtain rfl : x = (s.readKV e.key).1 := congrArg Prod.fst (Program.answer_of_calls hcalls)
    exact absurd hs (not_failed_of_isOK hremoves.1)

end Distinct

/-- On versioned records and distinct keys, an entry that is not harmless shows. -/
theorem allHarmless_of_sameAnswers {s u : Stores} {req : TransRequest} {r : ExecResult} (hver : Versioned s)
    (hnodup : (req.entries.filterMap entryKey).Nodup) (hrun : (execute req).run Stores.answer s = some (r, u))
    (hsame : SameAnswers s { u with mem := Event.applyAll u.mem r.events }) : AllHarmless s req := by
  rintro cond _ entry after st t ⟨status, s₁, hpre, hok, rfl, hreach⟩
  rcases run_execute hrun with ⟨status', cond', hpre', hok', rfl⟩ | ⟨status', cond', s₁', st', hpre', -, hloop, rfl⟩
  · cases hpre.symm.trans hpre'
    rw [hok] at hok'
    cases hok'
  cases hpre.symm.trans hpre'
  have hline (key : KeyType) : (Event.applyAll u.mem st'.events).line key = _ :=
    InMemoryKVStore.line_applyAll u.mem st'.events key
  cases entry with
  | read e => trivial
  | unset => trivial
  | write e =>
    by_contra hnot
    obtain ⟨st₁, t₁, hone, -, -, hnil, hsets⟩ := run_of_reaches hnodup rfl hreach hloop
    obtain ⟨record, hversion, hrecord⟩ := sets_write hone hnot hnil
    have hlive : (Event.applyAll u.mem st'.events).mData e.key = some record.cell := by
      rw [← InMemoryKVStore.line_eq_live, hline, hsets, hrecord]
      rfl
    have hmeta : (s.readMeta e.key).1.isOK ∧ (s.readMeta e.key).2.version = kInvalidVersion := by
      rw [(hsame e.key {}).2, Stores.readMeta, InMemoryKVStore.readMeta, hlive]
      exact ⟨rfl, hversion⟩
    exact hver.readMeta_ne e.key hmeta.1 hmeta.2
  | remove e =>
    intro hremoves
    by_contra hdata
    obtain ⟨c, hc⟩ := Option.ne_none_iff_exists'.mp hdata
    obtain ⟨st₁, t₁, hone, hswept, hfree, hnil, hsets⟩ := run_of_reaches hnodup rfl hreach hloop
    -- the cell is alive, so that no read has erased it before or after
    have hin : isTimeOut t.now c.deadline c.ttl = false := by
      by_contra hout
      have hnok := hremoves.1
      rw [Stores.readKV, InMemoryKVStore.readKV, hc] at hnok
      dsimp only at hnok
      rw [if_pos (by simpa using hout)] at hnok
      cases hnok
    have hu : u.mem.mData e.key = some c := by
      rcases hswept.data e.key with heq | ⟨-, c', hc', hout⟩
      · exact heq.trans hc
      · cases hc.symm.trans hc'
        rw [hin] at hout
        cases hout
    have hst : s.Swept t := by
      obtain ⟨-, before, -, hbefore⟩ := hreach.split rfl
      exact (Stores.swept_run hpre).trans (Stores.swept_run hbefore)
    have hs : s.mem.mData e.key = some c := by
      rcases hst.data e.key with heq | ⟨hnone, -⟩
      · exact heq.symm.trans hc
      · rw [hnone] at hc
        cases hc
    have hdead : (Event.applyAll u.mem st'.events).line e.key = .dead := by
      rw [hline, hsets, sets_remove hone hfree hremoves hnil, InMemoryKVStore.line_eq_live.mpr hu]
      rfl
    have hread := congrArg Prod.fst (hsame e.key {}).1
    rw [InMemoryKVStore.readKV_of_dead hdead, InMemoryKVStore.readKV, hs] at hread
    dsimp only at hread
    rw [← hst.now, if_neg (by simp [hin])] at hread
    cases hread

/-- A transaction that ends with an error sends nothing to the log. If the entries it gets to are harmless, it leaves
every answer of the cache as it was exactly if RocksDB answers for what its reads erase; and on versioned records and
distinct keys the entries have to be harmless. -/
theorem doExecute_failed_sameAnswers {p p' : Processor} {req : TransRequest} {r : ExecResult} {u : Stores}
    {out : Outcome} (hrun : (execute req).run Stores.answer p.stores = some (r, u)) (hfail : Failed r.status)
    (hdo : doExecute p (KVTransCommand req) = some (out, p')) :
    (∃ response, out = .reply response) ∧
      (AllHarmless p.stores req → (SameAnswers p.stores p'.stores ↔ ReadsFlushed p.stores req)) ∧
      (Versioned p.stores → (req.entries.filterMap entryKey).Nodup → SameAnswers p.stores p'.stores →
        AllHarmless p.stores req) := by
  have hfailed : hasFailed r = true := by simp [hasFailed, hfail.1, hfail.2]
  obtain ⟨hout, hstores⟩ := doExecute_of_hasFailed (c := KVTransCommand req) hrun hfailed hdo
  have hstores : p'.stores = { u with mem := Event.applyAll u.mem r.events } := hstores
  refine ⟨hout, fun hall => ?_, fun hver hnodup hsame => ?_⟩
  · have hsame : p'.stores = u := by rw [hstores, (traceless_execute hrun hall).applyAll]
    rw [hsame]
    exact sameAnswers_run_iff hrun
  · rw [hstores] at hsame
    exact allHarmless_of_sameAnswers hver hnodup hrun hsame

/-- A key with the number 1, and a transaction that provides 2 for it but then writes 3. -/
def numbered : Processor where
  stores := { mem := InMemoryKVStore.writeKV {} "a" "x" 1 NOT_UPDATED { uintField := [1] } }
  versions := { mNextVersion := 2, mMaxVersion := 1 }

def mismatchAfter (entry : Entry) : TransRequest where
  preconds := [.userMetaCond "a" .NUM { uintField := [2] } 0 .GREATER]
  entries := [entry, .write { key := "a", value := "y", udfMeta := { uintField := [3] } }]

theorem doExecute_readThenMismatch : ∃ out p',
    doExecute numbered (KVTransCommand (mismatchAfter (.read ⟨"b"⟩))) = some (out, p') ∧
      SameAnswers numbered.stores p'.stores := by
  obtain ⟨-, hsame, -⟩ := @doExecute_failed_sameAnswers numbered _ (mismatchAfter (.read ⟨"b"⟩)) _ _ _ rfl
    (by decide) rfl
  refine ⟨_, _, rfl, (hsame ?_).mpr ?_⟩
  · rintro cond _ entry after st t ⟨status, s₁, hpre, -, rfl, hreach⟩
    cases hpre
    rcases reaches_cons.mp hreach with ⟨rfl, -⟩ | ⟨st₁, s₂, hread, -, hreach⟩
    · trivial
    · cases hread
      rcases reaches_cons.mp hreach with ⟨rfl, -, -, rfl⟩ | ⟨st₂, s₃, hwrite, hgo, -⟩
      · exact .inr (.inr ⟨_, rfl, rfl⟩)
      · cases hwrite
        cases hgo
  · rintro key - c hc hout
    by_cases hk : key = "a"
    · subst hk
      cases hc
      cases hout
    · simp [numbered, InMemoryKVStore.writeKV, InMemoryKVStore.writeTTLKV, hk] at hc

/-- The write before the mismatch stays in the cache, under version 0, although the client is told
that the transaction failed. -/
theorem doExecute_writeThenMismatch : ∃ response p',
    doExecute numbered (KVTransCommand (mismatchAfter (.write { key := "b", value := "z" }))) =
        some (.reply response, p') ∧ response.code = .GENERAL_ERROR ∧
      (numbered.stores.readKV "b").1 = .notFound "b not found" ∧
      p'.stores.readKV "b" = (.ok, ⟨"z", INFINITE_TTL, kInvalidVersion⟩) ∧
      ¬ SameAnswers numbered.stores p'.stores := by
  refine ⟨_, _, rfl, rfl, rfl, rfl, fun h => ?_⟩
  have hst : Status.notFound "b not found" = .ok := congrArg Prod.fst (h "b" {}).1
  cases hst

end Goblin.Execution
