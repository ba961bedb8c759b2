import Goblin.Command.Run
import Goblin.Command.Trans
import Goblin.Lib.Lookup

/-! One entry of a transaction at a time: what it can do, whatever the store answers, and how the loop over the
entries gets to it. -/
namespace Goblin.Execution

open Model Store Lib KVTransCommand List

/-- A call to the store with its answer. -/
abbrev Call : Type := Σ o : StoreOp, o.Res

def Failed (s : Status) : Prop := s.isOK = false ∧ s.isNotFound = false

instance (s : Status) : Decidable (Failed s) := inferInstanceAs (Decidable (_ ∧ _))

theorem not_failed_of_isOK {s : Status} (h : s.isOK) : ¬ Failed s := fun hf => by simp [hf.1] at h

theorem not_failed_of_isNotFound {s : Status} (h : s.isNotFound) : ¬ Failed s := fun hf => by simp [hf.2] at h

theorem isNotFound_of_isOK {status : Status} (h : status.isOK) : status.isNotFound = false := by
  have hcode : status.code = .ok := of_decide_eq_true h
  simp [Status.isNotFound, hcode]

/-- The ttl that a write without one takes over from the meta of the value it replaces. -/
def keptTTL (now : ℕ) (r : Status × Meta) : Option ℕ :=
  if r.1.isOK ∧ r.2.ttl ≠ INFINITE_TTL ∧ r.2.deadline > now then some r.2.ttl else none

def settledTTL (now : ℕ) (r : Status × Meta) (e : WriteEntry) : Bool × ℕ :=
  if e.enableTTL then
    if e.ttl = INFINITE_TTL then
      match keptTTL now r with
      | some ttl => (true, ttl)
      | none => (false, INFINITE_TTL)
    else (true, e.ttl)
  else (false, INFINITE_TTL)

/-- The write asks for the ttl of the value it replaces. -/
def Reuses (e : WriteEntry) : Prop := e.enableTTL = true ∧ e.ttl = INFINITE_TTL

instance (e : WriteEntry) : Decidable (Reuses e) := inferInstanceAs (Decidable (_ ∧ _))

/-- What `fixTTL` makes of the ttl of a write; a write that gives one, or wants none, reads nothing. -/
inductive FixesTTL (e : WriteEntry) : Except Status (Bool × ℕ) → List Call → Prop
  | asked (h : ¬ Reuses e) (now : ℕ) (m : Status × Meta) : FixesTTL e (.ok (settledTTL now m e)) []
  | kept (h : Reuses e) {m : Status × Meta} (hm : ¬ Failed m.1) (now : ℕ) :
      FixesTTL e (.ok (settledTTL now m e)) [⟨.readMeta e.key, m⟩, ⟨.secondsSinceEpoch, now⟩]
  | failed (h : Reuses e) {m : Status × Meta} (hm : Failed m.1) (now : ℕ) :
      FixesTTL e (.error m.1) [⟨.readMeta e.key, m⟩, ⟨.secondsSinceEpoch, now⟩]

theorem fixesTTL_of_leads {e : WriteEntry} {r : Except Status (Bool × ℕ)} {cs : List Call}
    (h : (fixTTL e.key e.enableTTL (if e.enableTTL then e.ttl else INFINITE_TTL)).Leads r cs) : FixesTTL e r cs := by
  unfold fixTTL at h
  by_cases hreuse : Reuses e
  · obtain ⟨henable, httl⟩ := id hreuse
    rw [henable, httl, if_pos rfl, if_pos ⟨rfl, rfl⟩] at h
    obtain ⟨m, _, rfl, now, _, rfl, h⟩ := h
    have hsettled : settledTTL now m e = (keptTTL now m).elim (false, INFINITE_TTL) (true, ·) := by
      rw [settledTTL, if_pos henable, if_pos httl]
      cases keptTTL now m <;> rfl
    have hkept (hm : ¬ Failed m.1) (hr : r = .ok ((keptTTL now m).elim (false, INFINITE_TTL) (true, ·))) :
        FixesTTL e r [⟨.readMeta e.key, m⟩, ⟨.secondsSinceEpoch, now⟩] := by
      rw [hr, ← hsettled]
      exact .kept hreuse hm now
    change Program.Leads (if m.1.isOK = true then _ else _) _ _ at h
    by_cases hok : m.1.isOK = true
    · rw [if_pos hok] at h
      by_cases hlive : m.2.ttl ≠ INFINITE_TTL ∧ m.2.deadline > now
      · rw [if_pos hlive] at h
        obtain ⟨rfl, rfl⟩ := h
        exact hkept (not_failed_of_isOK hok) (by rw [keptTTL, if_pos ⟨hok, hlive⟩]; rfl)
      · rw [if_neg hlive] at h
        obtain ⟨rfl, rfl⟩ := h
        exact hkept (not_failed_of_isOK hok) (by rw [keptTTL, if_neg fun h => hlive h.2]; rfl)
    · rw [if_neg hok] at h
      by_cases hnf : m.1.isNotFound = true
      · rw [if_pos hnf] at h
        obtain ⟨rfl, rfl⟩ := h
        exact hkept (not_failed_of_isNotFound hnf) (by rw [keptTTL, if_neg fun h => hok h.1]; rfl)
      · rw [if_neg hnf] at h
        obtain ⟨rfl, rfl⟩ := h
        exact .failed hreuse ⟨by simpa using hok, by simpa using hnf⟩ now
  · have hno : ¬ (e.enableTTL = true ∧ (if e.enableTTL then e.ttl else INFINITE_TTL) = INFINITE_TTL) := by
      rintro ⟨henable, httl⟩
      rw [if_pos henable] at httl
      exact hreuse ⟨henable, httl⟩
    rw [if_neg hno] at h
    obtain ⟨rfl, rfl⟩ := h
    have hsettled : settledTTL 0 (.ok, {}) e = (e.enableTTL, if e.enableTTL then e.ttl else INFINITE_TTL) := by
      unfold settledTTL
      by_cases henable : e.enableTTL = true
      · have httl : e.ttl ≠ INFINITE_TTL := fun httl => hreuse ⟨henable, httl⟩
        rw [if_pos henable, if_pos henable, if_neg httl, henable]
      · rw [if_neg henable, if_neg henable, Bool.eq_false_iff.mpr henable]
    rw [← hsettled]
    exact .asked hreuse 0 (.ok, {})

/-- `fixTTL` on stores that no other command changes. -/
theorem run_fixTTL (s : Stores) (e : WriteEntry) :
    (fixTTL e.key e.enableTTL (if e.enableTTL then e.ttl else INFINITE_TTL)).run Stores.answer s =
      some (if Reuses e ∧ Failed (s.readMeta e.key).1 then .error (s.readMeta e.key).1
        else .ok (settledTTL s.now (s.readMeta e.key) e), s) := by
  unfold fixTTL settledTTL keptTTL
  by_cases hreuse : Reuses e
  · obtain ⟨henable, httl⟩ := id hreuse
    rw [if_pos ⟨henable, by simp [henable, httl]⟩]
    by_cases hok : (s.readMeta e.key).1.isOK = true
    · by_cases hlive : (s.readMeta e.key).2.ttl ≠ INFINITE_TTL ∧ (s.readMeta e.key).2.deadline > s.now <;>
        simp [Reuses, Failed, henable, httl, hok, hlive]
    · by_cases hnf : (s.readMeta e.key).1.isNotFound = true <;> simp [Reuses, Failed, henable, httl, hok, hnf]
  · have hno : ¬ (e.enableTTL = true ∧ (if e.enableTTL then e.ttl else INFINITE_TTL) = INFINITE_TTL) := by
      rintro ⟨henable, httl⟩
      exact hreuse ⟨henable, by simpa [henable] using httl⟩
    have hfree : ¬ (Reuses e ∧ Failed (s.readMeta e.key).1) := fun h => hreuse h.1
    rw [if_neg hno, if_neg hfree]
    cases henable : e.enableTTL with
    | false => rfl
    | true =>
      have httl : e.ttl ≠ INFINITE_TTL := fun httl => hreuse ⟨henable, httl⟩
      simp [httl]

/-- How the overlay answers a read: from what it holds, or from the store behind it. -/
inductive OverlayReads (t : TemporalKVStore) (key : KeyType) :
    Status × ReadOut → TemporalKVStore → List Call → Prop
  | deleted (hdata : t.mData key = none) (hdeleted : t.mDeletedData key = true) :
      OverlayReads t key (.notFound (key ++ " not found"), {}) t []
  | store (hfree : Free t key) (r : Status × ReadOut) : OverlayReads t key r t [⟨.readKV key {}, r⟩]
  | lapsed {c : Cell} (hdata : t.mData key = some c) {now : ℕ} (hout : isTimeOut now c.deadline c.ttl = true) :
      OverlayReads t key (.notFound (key ++ " not found"), {})
        { t with mData := Function.update t.mData key none } [⟨.secondsSinceEpoch, now⟩]
  | own {c : Cell} (hdata : t.mData key = some c) {now : ℕ} (hin : isTimeOut now c.deadline c.ttl = false) :
      OverlayReads t key (.ok, ⟨c.value, c.ttl, c.version⟩) t [⟨.secondsSinceEpoch, now⟩]

theorem overlayReads_of_leads {t t' : TemporalKVStore} {key : KeyType} {r : Status × ReadOut} {cs : List Call}
    (h : (t.readKV key {}).Leads (r, t') cs) : OverlayReads t key r t' cs := by
  unfold TemporalKVStore.readKV at h
  cases hdata : t.mData key with
  | none =>
    rw [hdata] at h
    dsimp only at h
    by_cases hdeleted : t.mDeletedData key = true
    · rw [if_pos hdeleted] at h
      obtain ⟨heq, rfl⟩ := h
      cases heq
      exact .deleted hdata hdeleted
    · rw [if_neg hdeleted] at h
      obtain ⟨r', _, rfl, heq, rfl⟩ := h
      cases heq
      exact .store ⟨hdata, Bool.eq_false_iff.mpr hdeleted⟩ _
  | some c =>
    rw [hdata] at h
    obtain ⟨now, _, rfl, h⟩ := h
    change Program.Leads (if isTimeOut now c.deadline c.ttl = true then _ else _) _ _ at h
    by_cases hout : isTimeOut now c.deadline c.ttl = true
    · rw [if_pos hout] at h
      obtain ⟨heq, rfl⟩ := h
      cases heq
      exact .lapsed hdata hout
    · rw [if_neg hout] at h
      obtain ⟨heq, rfl⟩ := h
      cases heq
      exact .own hdata (Bool.eq_false_iff.mpr hout)

/-- A read entry goes through a copy of the overlay; a stale read asks the store behind it. -/
inductive EntryReads (fromProxy : Bool) (t : TemporalKVStore) (key : KeyType) :
    Status × ReadOut → List Call → Prop
  | proxy (h : fromProxy = true) (r : Status × ReadOut) : EntryReads fromProxy t key r [⟨.readKV key {}, r⟩]
  | overlay (h : fromProxy = false) {r : Status × ReadOut} {t' : TemporalKVStore} {cs : List Call}
      (hread : OverlayReads t key r t' cs) : EntryReads fromProxy t key r cs

theorem entryReads_of_leads {fromProxy : Bool} {t : TemporalKVStore} {key : KeyType} {r : Status × ReadOut}
    {cs : List Call} (h : (tempReadKV fromProxy t key).Leads r cs) : EntryReads fromProxy t key r cs := by
  unfold tempReadKV at h
  cases fromProxy with
  | true =>
    obtain ⟨r', _, rfl, rfl, rfl⟩ := h
    exact .proxy rfl _
  | false =>
    obtain ⟨⟨r', t'⟩, ds, es, hread, ⟨rfl, rfl⟩, rfl⟩ := Program.leads_bind.mp h
    rw [append_nil]
    exact .overlay rfl (overlayReads_of_leads hread)

/-- The event of a read that found its key, and the meta it has read for it. -/
inductive ReturnsMeta (fromProxy isMetaReturned : Bool) (key : KeyType) (out : ReadOut) : Event → List Call → Prop
  | plain (h : isMetaReturned = false) : ReturnsMeta fromProxy isMetaReturned key out (foundEvent key out) []
  | store (h : isMetaReturned = true) (hstale : fromProxy = false) (m : Status × Meta) (updateTime : ℕ)
      (udfMeta : UserDefinedMeta) :
      ReturnsMeta fromProxy isMetaReturned key out (foundEvent key out updateTime udfMeta) [⟨.readMeta key, m⟩]
  | proxy (h : isMetaReturned = true) (hstale : fromProxy = true) (m : Status × Meta) (updateTime : ℕ)
      (udfMeta : UserDefinedMeta) :
      ReturnsMeta fromProxy isMetaReturned key out (foundEvent key out updateTime udfMeta)
        [⟨.readMetaFromProxy key, m⟩]

theorem returnsMeta_of_leads {fromProxy isMetaReturned : Bool} {key : KeyType} {out : ReadOut} {v : Event}
    {cs : List Call} (h : (newReadEvent fromProxy isMetaReturned key out).Leads v cs) :
    ReturnsMeta fromProxy isMetaReturned key out v cs := by
  unfold newReadEvent at h
  cases isMetaReturned with
  | false =>
    obtain ⟨rfl, rfl⟩ := h
    exact .plain rfl
  | true =>
    obtain ⟨m, ds, es, hm, hv, rfl⟩ := Program.leads_bind.mp h
    obtain ⟨updateTime, udfMeta, rfl, rfl⟩ : ∃ updateTime udfMeta, v = foundEvent key out updateTime udfMeta ∧
        es = [] := by
      dsimp only at hv
      split at hv
      · split_ifs at hv
        · exact ⟨_, _, hv⟩
        · exact ⟨_, _, hv⟩
      · exact ⟨_, _, hv⟩
    unfold readMetaFrom at hm
    cases fromProxy with
    | false =>
      obtain ⟨_, _, rfl, -, rfl⟩ := hm
      exact .store rfl rfl ..
    | true =>
      obtain ⟨_, _, rfl, -, rfl⟩ := hm
      exact .proxy rfl rfl ..

/-- The loop state after a put under the ttl in `x`. -/
def putState (st : LoopState) (e : WriteEntry) (x : Bool × ℕ) (curTime updateTime : ℕ) : LoopState :=
  let w := newWriteEvent e x.1 x.2 curTime updateTime
  let tempStore :=
    if x.1 then st.tempStore.writeTTLKV e.key e.value kInvalidVersion x.2 w.mDeadline updateTime e.udfMeta
    else st.tempStore.writeKV e.key e.value kInvalidVersion updateTime e.udfMeta
  { st with tempStore := tempStore }.push .ok (.write w)

/-- Everything that an entry can do: the loop state it leaves and the calls that led there. -/
inductive Executes (req : TransRequest) (cond : CondState) (curTime : ℕ) (st : LoopState) :
    Entry → LoopState → List Call → Prop
  | ignored {e : WriteEntry} (h : e.key ∈ cond.ignoredUdfUintKeys) :
      Executes req cond curTime st (.write e) (st.push st.status (ignoredEvent e)) []
  | unsettled {e : WriteEntry} (h : e.key ∉ cond.ignoredUdfUintKeys) {s : Status} {cs : List Call}
      (hfix : FixesTTL e (.error s) cs) : Executes req cond curTime st (.write e) (st.fail s) cs
  | mismatch {e : WriteEntry} (h : e.key ∉ cond.ignoredUdfUintKeys) {x : Bool × ℕ} {cs : List Call}
      (hfix : FixesTTL e (.ok x) cs) {m : UserDefinedMeta} (hm : cond.udfUintKey2Meta e.key = some m)
      (hne : udfMetaIdentical e.udfMeta m = some false) :
      Executes req cond curTime st (.write e) (st.fail (.error "udfmeta not identical")) cs
  | put {e : WriteEntry} (h : e.key ∉ cond.ignoredUdfUintKeys) {x : Bool × ℕ} {cs : List Call}
      (hfix : FixesTTL e (.ok x) cs)
      (hsame : ∀ m, cond.udfUintKey2Meta e.key = some m → udfMetaIdentical e.udfMeta m = some true) (now : ℕ) :
      Executes req cond curTime st (.write e) (putState st e x curTime now) (cs ++ [⟨.secondsSinceEpoch, now⟩])
  | missing {e : ReadEntry} {s : Status} {out : ReadOut} {cs : List Call}
      (hread : EntryReads (isFollowerReadCmd req) st.tempStore e.key (s, out) cs) (hs : s.isNotFound = true) :
      Executes req cond curTime st (.read e) (st.push s (notFoundEvent e.key out)) cs
  | found {e : ReadEntry} {s : Status} {out : ReadOut} {cs : List Call}
      (hread : EntryReads (isFollowerReadCmd req) st.tempStore e.key (s, out) cs) (hs : s.isOK = true) {v : Event}
      {ds : List Call} (hmeta : ReturnsMeta (isFollowerReadCmd req) req.isMetaReturned e.key out v ds) :
      Executes req cond curTime st (.read e) (st.push s v) (cs ++ ds)
  | unread {e : ReadEntry} {s : Status} {out : ReadOut} {cs : List Call}
      (hread : EntryReads (isFollowerReadCmd req) st.tempStore e.key (s, out) cs) (hs : Failed s) :
      Executes req cond curTime st (.read e) (st.fail s) cs
  | absent {e : RemoveEntry} {s : Status} {out : ReadOut} {t : TemporalKVStore} {cs : List Call}
      (hread : OverlayReads st.tempStore e.key (s, out) t cs) (hs : s.isNotFound = true) :
      Executes req cond curTime st (.remove e) (LoopState.push { st with tempStore := t } s
        (notFoundEvent e.key out)) cs
  | removed {e : RemoveEntry} {s : Status} {out : ReadOut} {t : TemporalKVStore} {cs : List Call}
      (hread : OverlayReads st.tempStore e.key (s, out) t cs) (hs : s.isOK = true) :
      Executes req cond curTime st (.remove e)
        (LoopState.push { st with tempStore := t } s (removeEvent e out out.value)) cs
  /-- the status is not checked, and the loop goes on -/
  | lost {e : RemoveEntry} {s : Status} {out : ReadOut} {t : TemporalKVStore} {cs : List Call}
      (hread : OverlayReads st.tempStore e.key (s, out) t cs) (hs : Failed s) :
      Executes req cond curTime st (.remove e) { st with tempStore := t, status := s } cs
  | unset : Executes req cond curTime st .unset (st.fail (.invalidArg "invalid request")) []

section Entries

variable {req : TransRequest} {cond : CondState} {curTime : ℕ} {st st' : LoopState} {entry : Entry} {cs : List Call}

theorem executes_write {e : WriteEntry} (h : (writeEntry cond curTime st e).Leads st' cs) :
    Executes req cond curTime st (.write e) st' cs := by
  unfold writeEntry at h
  by_cases hignored : e.key ∈ cond.ignoredUdfUintKeys
  · rw [if_pos hignored] at h
    obtain ⟨rfl, rfl⟩ := h
    exact .ignored hignored
  rw [if_neg hignored] at h
  obtain ⟨r, ds, es, hfix, hrest, rfl⟩ := Program.leads_bind.mp h
  have hfix := fixesTTL_of_leads hfix
  cases r with
  | error s =>
    obtain ⟨rfl, rfl⟩ := hrest
    rw [append_nil]
    exact .unsettled hignored hfix
  | ok x =>
    have hput (h : (putEntry curTime st e x.1 x.2).Leads st' es)
        (hsame : ∀ m, cond.udfUintKey2Meta e.key = some m → udfMetaIdentical e.udfMeta m = some true) :
        Executes req cond curTime st (.write e) st' (ds ++ es) := by
      obtain ⟨now, _, rfl, rfl, rfl⟩ := h
      exact .put hignored hfix hsame now
    dsimp only at hrest
    cases hm : cond.udfUintKey2Meta e.key with
    | none =>
      rw [hm] at hrest
      exact hput hrest fun m hm' => by rw [hm] at hm'; cases hm'
    | some m =>
      rw [hm] at hrest
      dsimp only at hrest
      cases hsame : udfMetaIdentical e.udfMeta m with
      | none =>
        rw [hsame] at hrest
        exact hrest.elim
      | some same =>
        rw [hsame] at hrest
        cases same with
        | false =>
          obtain ⟨rfl, rfl⟩ := hrest
          rw [append_nil]
          exact .mismatch hignored hfix hm hsame
        | true =>
          refine hput hrest fun m' hm' => ?_
          rw [hm] at hm'
          cases hm'
          exact hsame

theorem executes_read {e : ReadEntry}
    (h : (readEntry (isFollowerReadCmd req) req.isMetaReturned st e).Leads st' cs) :
    Executes req cond curTime st (.read e) st' cs := by
  unfold readEntry at h
  obtain ⟨⟨s, out⟩, ds, es, hread, hrest, rfl⟩ := Program.leads_bind.mp h
  have hread := entryReads_of_leads hread
  dsimp only at hrest
  split_ifs at hrest with hnf hok
  · obtain ⟨rfl, rfl⟩ := hrest
    rw [append_nil]
    exact .missing hread hnf
  · obtain ⟨v, fs, _, hv, ⟨rfl, rfl⟩, rfl⟩ := Program.leads_bind.mp hrest
    rw [append_nil]
    exact .found hread hok (returnsMeta_of_leads hv)
  · obtain ⟨rfl, rfl⟩ := hrest
    rw [append_nil]
    exact .unread hread ⟨by simpa using hok, by simpa using hnf⟩

theorem executes_remove {e : RemoveEntry} (h : (removeEntry st e).Leads st' cs) :
    Executes req cond curTime st (.remove e) st' cs := by
  unfold removeEntry at h
  obtain ⟨⟨⟨s, out⟩, t⟩, ds, es, hread, hrest, rfl⟩ := Program.leads_bind.mp h
  have hread := overlayReads_of_leads hread
  dsimp only at hrest
  split_ifs at hrest with hnf hok
  · obtain ⟨rfl, rfl⟩ := hrest
    rw [append_nil]
    exact .absent hread hnf
  · obtain ⟨rfl, rfl⟩ := hrest
    rw [append_nil]
    exact .removed hread hok
  · obtain ⟨rfl, rfl⟩ := hrest
    rw [append_nil]
    exact .lost hread ⟨by simpa using hok, by simpa using hnf⟩

theorem executes_of_leads (h : (execEntry req cond curTime st entry).Leads st' cs) :
    Executes req cond curTime st entry st' cs := by
  cases entry with
  | write e => exact executes_write h
  | read e => exact executes_read h
  | remove e => exact executes_remove h
  | unset =>
    obtain ⟨rfl, rfl⟩ := h
    exact .unset

end Entries

/-- The store has reported an error other than a missing key. -/
def Erred : Call → Prop
  | ⟨.readKV _ _, r⟩ => Failed r.1
  | ⟨.readKVFromProxy _ _, r⟩ => Failed r.1
  | ⟨.readMeta _, r⟩ => Failed r.1
  | ⟨.readMetaFromProxy _, r⟩ => Failed r.1
  | ⟨.secondsSinceEpoch, _⟩ => False

section Errors

variable {cs : List Call} {key : KeyType}

theorem not_erred_of_fixesTTL {e : WriteEntry} {x : Bool × ℕ} (h : FixesTTL e (.ok x) cs) : ∀ c ∈ cs, ¬ Erred c := by
  cases h with
  | asked => exact nofun
  | kept _ hm now =>
    intro c hc
    rcases mem_pair.mp hc with rfl | rfl
    · exact hm
    · exact id

theorem erred_of_fixesTTL {e : WriteEntry} {s : Status} (h : FixesTTL e (.error s) cs) :
    Failed s ∧ ∃ c ∈ cs, Erred c := by
  cases h with
  | failed _ hm now => exact ⟨hm, _, mem_cons_self, hm⟩

theorem erred_iff_of_overlayReads {t t' : TemporalKVStore} {r : Status × ReadOut} (h : OverlayReads t key r t' cs) :
    (∃ c ∈ cs, Erred c) ↔ Failed r.1 := by
  cases h with
  | deleted => exact ⟨nofun, fun hf => absurd hf (not_failed_of_isNotFound rfl)⟩
  | store hfree r => simp [Erred]
  | lapsed hdata hout => simpa [Erred] using not_failed_of_isNotFound rfl
  | own hdata hin => simpa [Erred] using not_failed_of_isOK rfl

theorem erred_iff_of_entryReads {fromProxy : Bool} {t : TemporalKVStore} {r : Status × ReadOut}
    (h : EntryReads fromProxy t key r cs) : (∃ c ∈ cs, Erred c) ↔ Failed r.1 := by
  cases h with
  | proxy _ r => simp [Erred]
  | overlay _ hread => exact erred_iff_of_overlayReads hread

variable {req : TransRequest} {cond : CondState} {curTime : ℕ} {st st' : LoopState} {entry : Entry}

end Errors

/-- The comparison of the user defined meta of a put with the one of its condition stays inside the lists. -/
def StaysInside (cond : CondState) : Entry → Prop
  | .write e => e.key ∉ cond.ignoredUdfUintKeys → ∀ m, cond.udfUintKey2Meta e.key = some m →
    (udfMetaIdentical e.udfMeta m).isSome = true
  | _ => True

section Ends

variable {R : (o : StoreOp) → o.Res → Prop} {req : TransRequest} {cond : CondState} {curTime : ℕ}

theorem ends_fixTTL (key : KeyType) (enableTTL : Bool) (ttl : ℕ) :
    (fixTTL key enableTTL ttl).Ensures R fun _ => True := by
  unfold fixTTL
  split_ifs
  · intro m _ now _
    change Program.Ensures _ _ (if _ then _ else _)
    split_ifs <;> trivial
  · trivial

theorem ends_temporalReadKV (t : TemporalKVStore) (key : KeyType) : (t.readKV key {}).Ensures R fun _ => True := by
  unfold TemporalKVStore.readKV
  split
  · split_ifs
    · trivial
    · exact fun _ _ => trivial
  · intro now _
    change Program.Ensures _ _ (if _ then _ else _)
    split_ifs <;> trivial

theorem ends_tempReadKV (fromProxy : Bool) (t : TemporalKVStore) (key : KeyType) :
    (tempReadKV fromProxy t key).Ensures R fun _ => True := by
  cases fromProxy with
  | true => exact fun _ _ => trivial
  | false => exact (ends_temporalReadKV t key).bind fun _ _ => trivial

theorem ends_newReadEvent (fromProxy isMetaReturned : Bool) (key : KeyType) (out : ReadOut) :
    (newReadEvent fromProxy isMetaReturned key out).Ensures R fun _ => True := by
  unfold newReadEvent
  split_ifs
  · refine (show (readMetaFrom fromProxy key).Ensures R fun _ => True from ?_).bind fun m _ => ?_
    · cases fromProxy <;> exact fun _ _ => trivial
    · dsimp only
      split
      · split_ifs <;> trivial
      · trivial
  · trivial

/-- Only the comparison of user defined metas can fail to end. -/
theorem ends_execEntry (st : LoopState) {entry : Entry} (h : StaysInside cond entry) :
    (execEntry req cond curTime st entry).Ensures R fun _ => True := by
  cases entry with
  | write e =>
    rw [execEntry, writeEntry]
    by_cases hignored : e.key ∈ cond.ignoredUdfUintKeys
    · rw [if_pos hignored]
      trivial
    rw [if_neg hignored]
    refine (ends_fixTTL e.key e.enableTTL _).bind fun r _ => ?_
    cases r with
    | error s => trivial
    | ok x =>
      dsimp only
      cases hm : cond.udfUintKey2Meta e.key with
      | none => exact fun _ _ => trivial
      | some m =>
        obtain ⟨same, hsame⟩ := Option.isSome_iff_exists.mp (h hignored m hm)
        dsimp only
        rw [hsame]
        cases same with
        | false => trivial
        | true => exact fun _ _ => trivial
  | read e =>
    refine (ends_tempReadKV (isFollowerReadCmd req) st.tempStore e.key).bind fun ⟨s, out⟩ _ => ?_
    dsimp only
    split_ifs
    · trivial
    · exact (ends_newReadEvent _ _ e.key out).bind fun _ _ => trivial
    · trivial
  | remove e =>
    refine (ends_temporalReadKV st.tempStore e.key).bind fun ⟨⟨s, out⟩, t⟩ _ => ?_
    dsimp only
    split_ifs <;> trivial
  | unset => trivial

end Ends

section Reached

variable {σ : Type} (answer : σ → (o : StoreOp) → o.Res × σ) (req : TransRequest) (cond : CondState) (curTime : ℕ)

/-- From its state before `entries` the loop gets to `entry`, which it finds in the state `st'` and `s'`, with the
entries `after` still to come. -/
inductive Reaches : List Entry → LoopState → σ → Entry → List Entry → LoopState → σ → Prop
  | here (entry : Entry) (after : List Entry) (st : LoopState) (s : σ) :
      Reaches (entry :: after) st s entry after st s
  | next {first : Entry} {rest : List Entry} {st st₁ st' : LoopState} {s s₁ s' : σ} {entry : Entry}
      {after : List Entry} (hrun : (execEntry req cond curTime st first).run answer s = some (st₁, s₁))
      (hgo : st₁.stop = false) (h : Reaches rest st₁ s₁ entry after st' s') :
      Reaches (first :: rest) st s entry after st' s'

/-- The transaction gets to the entry: its preconditions hold, and the loop finds the entry in the state `st` and
`t`. -/
def Reached (s : σ) (entry : Entry) (after : List Entry) (st : LoopState) (t : σ) : Prop :=
  ∃ status s₁, (checkPrecond (isFollowerReadCmd req) req.preconds .ok {}).run answer s = some ((status, cond), s₁) ∧
    status.isOK = true ∧ curTime = (answer s₁ .secondsSinceEpoch).1 ∧
    Reaches answer req cond curTime req.entries { status := status } (answer s₁ .secondsSinceEpoch).2 entry after st t

variable {answer req cond curTime}

theorem reaches_cons {first entry : Entry} {rest after : List Entry} {st st' : LoopState} {s s' : σ} :
    Reaches answer req cond curTime (first :: rest) st s entry after st' s' ↔
      (first = entry ∧ rest = after ∧ st = st' ∧ s = s') ∨
      ∃ st₁ s₁, (execEntry req cond curTime st first).run answer s = some (st₁, s₁) ∧ st₁.stop = false ∧
        Reaches answer req cond curTime rest st₁ s₁ entry after st' s' := by
  constructor
  · rintro (_ | ⟨hrun, hgo, h⟩)
    · exact .inl ⟨rfl, rfl, rfl, rfl⟩
    · exact .inr ⟨_, _, hrun, hgo, h⟩
  · rintro (⟨rfl, rfl, rfl, rfl⟩ | ⟨st₁, s₁, hrun, hgo, h⟩)
    · exact .here ..
    · exact .next hrun hgo h

theorem Reaches.split {entries after : List Entry} {entry : Entry} {st st' : LoopState} {s s' : σ}
    (h : Reaches answer req cond curTime entries st s entry after st' s') (hstop : st.stop = false) :
    st'.stop = false ∧ ∃ before, entries = before ++ entry :: after ∧
      (execEntries req cond curTime before st).run answer s = some (st', s') := by
  induction h with
  | here entry after st s => exact ⟨hstop, [], rfl, rfl⟩
  | @next first rest st st₁ st' s s₁ s' entry after hrun hgo h ih =>
    obtain ⟨hstop', before, rfl, hbefore⟩ := ih hgo
    refine ⟨hstop', first :: before, rfl, Program.run_bind_eq_some.mpr ⟨st₁, s₁, hrun, ?_⟩⟩
    rw [hgo]
    exact hbefore

/-- What one answer does to the state, in a reflexive and transitive relation, the way to an entry does. -/
theorem Reached.rel {T : σ → σ → Prop} (hrefl : ∀ s, T s s) (htrans : ∀ s t u, T s t → T t u → T s u)
    (hstep : ∀ s o, T s (answer s o).2) {entry : Entry} {after : List Entry} {st : LoopState} {s t : σ}
    (h : Reached answer req cond curTime s entry after st t) : T s t := by
  obtain ⟨status, s₁, hpre, -, -, hreach⟩ := h
  obtain ⟨-, before, -, hbefore⟩ := hreach.split rfl
  exact htrans _ _ _ (Program.run_rel hrefl htrans hstep hpre)
    (htrans _ _ _ (hstep s₁ _) (Program.run_rel hrefl htrans hstep hbefore))

theorem run_execEntries_cons {first : Entry} {rest : List Entry} {st st' : LoopState} {s s' : σ}
    (h : (execEntries req cond curTime (first :: rest) st).run answer s = some (st', s')) :
    ∃ st₁ s₁, (execEntry req cond curTime st first).run answer s = some (st₁, s₁) ∧
      Executes req cond curTime st first st₁ ((execEntry req cond curTime st first).calls answer s) ∧
      (st₁.stop = true ∧ st' = st₁ ∧ s' = s₁ ∨
        st₁.stop = false ∧ (execEntries req cond curTime rest st₁).run answer s₁ = some (st', s')) := by
  obtain ⟨st₁, s₁, hone, hrest⟩ := Program.run_bind_eq_some.mp h
  refine ⟨st₁, s₁, hone, executes_of_leads (Program.leads_of_run hone), ?_⟩
  cases hstop : st₁.stop with
  | true =>
    rw [hstop, if_pos rfl] at hrest
    cases hrest
    exact .inl ⟨rfl, rfl, rfl⟩
  | false =>
    rw [hstop, if_neg Bool.false_ne_true] at hrest
    exact .inr ⟨rfl, hrest⟩

/-- A transaction ends with its preconditions or with its entries. -/
theorem run_execute {r : ExecResult} {s u : σ} (h : (execute req).run answer s = some (r, u)) :
    (∃ status cond, (checkPrecond (isFollowerReadCmd req) req.preconds .ok {}).run answer s =
        some ((status, cond), u) ∧ status.isOK = false ∧
        r = { status := status, ignoredPutKeys := cond.ignoredUdfUintKeys }) ∨
    ∃ status cond s₁ st, (checkPrecond (isFollowerReadCmd req) req.preconds .ok {}).run answer s =
        some ((status, cond), s₁) ∧ status.isOK = true ∧
      (execEntries req cond (answer s₁ .secondsSinceEpoch).1 req.entries { status := status }).run answer
        (answer s₁ .secondsSinceEpoch).2 = some (st, u) ∧
      r = { status := st.status, events := st.events, ignoredPutKeys := cond.ignoredUdfUintKeys } := by
  obtain ⟨⟨status, cond⟩, s₁, hpre, h⟩ := Program.run_bind_eq_some.mp h
  dsimp only at h
  cases hok : status.isOK with
  | false =>
    rw [hok] at h
    cases h
    exact .inl ⟨status, cond, hpre, hok, rfl⟩
  | true =>
    rw [hok] at h
    obtain ⟨curTime, s₂, hclock, h⟩ := Program.run_bind_eq_some.mp h
    cases hclock
    obtain ⟨st, _, hrun, h⟩ := Program.run_bind_eq_some.mp h
    cases h
    exact .inr ⟨status, cond, s₁, st, hpre, hok, hrun, rfl⟩

end Reached

theorem isFollowerReadCmd_of_write {req : TransRequest} {e : WriteEntry}
    (he : Entry.write e ∈ req.entries) : isFollowerReadCmd req = false := by
  simp only [isFollowerReadCmd, Bool.and_eq_false_iff, all_eq_false]
  exact .inr ⟨_, he, by simp⟩

end Goblin.Execution
