import Goblin.Engine.Takeover

/-! The way of a bundle from the processor to the log and of its task to the client: indexes along the
queues, and what a committed entry says about its task. -/
namespace Goblin.Engine

open Model Store Execution List

/-- The requests that have left the persist queue. -/
def Node.sent (s : Node) : List ClientRequest :=
  s.raft.requests ++ s.store.mBatchReqs

/-- The index that was asked for last, once a call of `dequeue` is through. -/
def RaftEventStore.lastSent (store : RaftEventStore) : ℕ :=
  match store.dequeuing with
  | some (.sent previousLogIndex) =>
    if store.mLastSentLogIndex = previousLogIndex then previousLogIndex + 1 else store.mLastSentLogIndex
  | _ => store.mLastSentLogIndex

/-- The indexes of those that belong to the term of the processor. -/
def Node.ownIndexes (s : Node) : List ℕ :=
  (s.sent.filter (·.entry.term = s.mCurTerm)).map ClientRequest.index

/-- An entry of a later term is committed at or before the index. -/
def Superseded (r : Raft) (term index : ℕ) : Prop :=
  ∃ i ≤ index, i ≤ r.committed ∧ ∃ entry, entryAt r.log i = some entry ∧ term < entry.term

/-- The log that this node had in the term ends before the next index that it asks for. -/
def Synced (r : Raft) (lastSent term : ℕ) : Prop :=
  ∀ own, r.led term = some own → own.length ≤ lastSent

/-- What the log of the term of a write task says about it: an entry at its index is its bundle. -/
def Settles (r : Raft) (task : Task) : Prop :=
  ∀ own entry, r.led task.mTerm = some own → entryAt own task.mIndex = some entry →
    entry.bundle = some task.events

structure Pipeline (s : Node) : Prop where
  terms : Terms s
  bundles : ∀ req ∈ s.sent, req.entry.bundle.isSome
  queued : ∀ e ∈ s.store.waiting,
    getVersionFromBundle e.events = e.version ∧ (s.raft.led e.expectedTerm).isSome ∧
      (Synced s.raft s.store.lastSent e.expectedTerm ∨
        Superseded s.raft e.expectedTerm s.store.lastSent)
  indexes : (s.raft.led s.mCurTerm).isSome → s.raft.currentTerm = s.mCurTerm →
    (s.raft.log.length :: s.ownIndexes).Pairwise (· < ·)
  synced : (∀ tk l, s.takeover = some tk → tk.stage ≠ .termSet l) →
    Synced s.raft s.store.lastSent s.mCurTerm
  index_le : ∀ index ∈ s.ownIndexes, index ≤ s.store.lastSent
  taskIndex_le : ∀ task ∈ s.tasks, task.mTerm = s.mCurTerm → task.mIndex ≤ s.store.lastSent
  taskLed : ∀ task ∈ s.tasks, task.mIndex ≠ 0 → getVersionFromBundle task.events = task.mVersion ∧
    (s.raft.led task.mTerm).isSome ∧
      (Settles s.raft task ∨ Superseded s.raft task.mTerm (task.mIndex - 1))
  taskRequest : ∀ task ∈ s.tasks, task.mIndex ≠ 0 → task.mTerm = s.mCurTerm → ∀ req ∈ s.sent,
    req.entry.term = s.mCurTerm → req.index = task.mIndex → req.entry.bundle = some task.events

namespace Superseded

variable {r t : Raft} {term index : ℕ}

theorem mono (h : Superseded r term index) {index' : ℕ} (hle : index ≤ index') :
    Superseded r term index' := by
  obtain ⟨i, hi, hrest⟩ := h
  exact ⟨i, hi.trans hle, hrest⟩

theorem step (h : Superseded r term index) (ht : r.Steps t) (hlen : r.committed ≤ r.log.length) :
    Superseded t term index := by
  obtain ⟨i, hi, hc, entry, hentry, hlt⟩ := h
  exact ⟨i, hi, hc.trans ht.committed_le, entry, (ht.entryAt_eq hlen hc).trans hentry, hlt⟩

theorem entry_term_ne (h : Superseded r term (index - 1)) (hr : r.Inv) {entry : LogEntry}
    (hentry : entryAt r.log index = some entry) : entry.term ≠ term := by
  obtain ⟨i, hi, -, later, hlater, hlt⟩ := h
  unfold entryAt at hentry hlater
  split_ifs at hentry hlater with h0 h0'
  obtain ⟨hi', rfl⟩ := List.getElem?_eq_some_iff.mp hlater
  obtain ⟨hindex, rfl⟩ := List.getElem?_eq_some_iff.mp hentry
  have hle := pairwise_iff_getElem.mp hr.sorted (i - 1) (index - 1) hi' hindex (by omega)
  omega

end Superseded

section RaftSteps

variable {r t : Raft}

/-- A leader's own log is the log, and a request that it accepts is the next entry. -/
theorem Raft.Steps.led_cases (ht : r.Steps t) (hr : r.Inv) {term : ℕ}
    (hled : term = 0 ∨ (r.led term).isSome) {own : List LogEntry} (hown : t.led term = some own) :
    r.led term = some own ∨
      ∃ req rest, r.requests = req :: rest ∧ req.entry.term = term ∧ term = r.currentTerm ∧
        r.led term = some r.log ∧ req.index = r.log.length + 1 ∧ own = r.log ++ [req.entry] := by
  cases ht with
  | elect term' helect =>
    refine .inl ?_
    have hne : term ≠ term' := by
      rintro rfl
      rcases hled with rfl | hled
      · exact absurd helect.pos (lt_irrefl 0)
      · rw [hr.led_of_electable helect] at hled
        cases hled
    simpa [Raft.append, Function.update_of_ne hne] using hown
  | accept req rest hreq hrole hterm hindex =>
    by_cases he : term = req.entry.term
    · subst he
      refine .inr ⟨req, rest, hreq, rfl, hterm, ?_, hindex, ?_⟩
      · rw [hterm, hr.led_current, if_pos hrole]
      · simpa [Raft.append] using hown.symm
    · exact .inl (by simpa [Raft.append, Function.update_of_ne he] using hown)
  | _ => exact .inl hown

theorem Synced.step {lastSent term : ℕ} (h : Synced r lastSent term) (ht : r.Steps t) (hr : r.Inv)
    (hled : term = 0 ∨ (r.led term).isSome)
    (hindex : term = r.currentTerm → ∀ req ∈ r.requests, req.entry.term = term → req.index ≤ lastSent) :
    Synced t lastSent term := by
  intro own hown
  rcases ht.led_cases hr hled hown with hown | ⟨req, rest, hreq, hterm, hcur, -, hidx, rfl⟩
  · exact h own hown
  · have := hindex hcur req (hreq ▸ mem_cons_self) hterm
    simp only [length_append, length_singleton]
    omega

theorem entryAt_concat {log : List LogEntry} {entry found : LogEntry} {index : ℕ}
    (h : entryAt (log ++ [entry]) index = some found) :
    entryAt log index = some found ∨ index = log.length + 1 ∧ found = entry := by
  unfold entryAt at h ⊢
  split_ifs at h ⊢ with h0
  rcases lt_trichotomy (index - 1) log.length with hlt | heq | hgt
  · rw [getElem?_append_left hlt] at h
    exact .inl h
  · rw [heq, getElem?_concat_length] at h
    exact .inr ⟨by omega, (Option.some.inj h).symm⟩
  · rw [getElem?_eq_none (by simp; omega)] at h
    cases h

theorem Settles.step {task : Task} (h : Settles r task) (ht : r.Steps t) (hr : r.Inv)
    (hled : (r.led task.mTerm).isSome)
    (hreq : task.mTerm = r.currentTerm → ∀ req ∈ r.requests, req.entry.term = task.mTerm →
      req.index = task.mIndex → req.entry.bundle = some task.events) :
    Settles t task := by
  intro own entry hown hentry
  rcases ht.led_cases hr (.inr hled) hown with hown | ⟨req, rest, hreqs, hterm, hcur, hled, hidx, rfl⟩
  · exact h own entry hown hentry
  · rcases entryAt_concat hentry with hentry | ⟨hindex, rfl⟩
    · exact h r.log entry hled hentry
    · exact hreq hcur req (hreqs ▸ mem_cons_self) hterm (hidx.trans hindex.symm)

end RaftSteps

theorem mem_ownIndexes {s : Node} {req : ClientRequest} (hreq : req ∈ s.sent)
    (hterm : req.entry.term = s.mCurTerm) : req.index ∈ s.ownIndexes :=
  mem_map_of_mem (mem_filter.mpr ⟨hreq, by simpa using hterm⟩)

namespace Pipeline

variable {s t : Node}

variable {req : ClientRequest} {e : PersistEntry} {tk : Takeover}

theorem indexes_raftStep (h : Pipeline s) {r : Raft} (hr : s.raft.Steps r)
    (hled : (r.led s.mCurTerm).isSome) (hcur : r.currentTerm = s.mCurTerm) :
    (r.log.length :: Node.ownIndexes { s with raft := r }).Pairwise (· < ·) := by
  rcases h.terms.log_cases hr hled hcur with ⟨hlog, hsub, hled', hcur'⟩ |
      ⟨req, rest, hreq, hindex, hterm, hled', hcur', rfl⟩
  · rw [hlog]
    exact (h.indexes hled' hcur').sublist (((hsub.append_right _).filter _).map _ |>.cons_cons _)
  · have hin := h.indexes hled' hcur'
    have hown : s.ownIndexes = req.index :: Node.ownIndexes
        { s with raft := Raft.append { s.raft with requests := rest } req.entry } := by
      simp [Node.ownIndexes, Node.sent, Raft.append, hreq, hterm]
    have hlen : (s.raft.log ++ [req.entry]).length = req.index := by simp [hindex]
    rw [hown] at hin
    exact hlen ▸ (pairwise_cons.mp hin).2

theorem raftStep (h : Pipeline s) {r : Raft} (hr : s.raft.Steps r) : Pipeline { s with raft := r } := by
  have hinv := h.terms.raft
  have hlen := h.terms.storage.committed_le
  have hsent : ∀ req ∈ Node.sent { s with raft := r }, req ∈ s.sent := by
    intro req hreq
    rcases mem_append.mp hreq with hreq | hreq
    · exact mem_append_left _ (hr.requests_subset hreq)
    · exact mem_append_right _ hreq
  -- a request of a term that is current and on its way is one of the processor's term
  have hown {term : ℕ} (hle : term ≤ s.mCurTerm) (hcur : term = s.raft.currentTerm) :
      term = s.mCurTerm := le_antisymm hle (hcur ▸ h.terms.curTerm_le)
  have hindex {term : ℕ} (hle : term ≤ s.mCurTerm) : term = s.raft.currentTerm →
      ∀ req ∈ s.raft.requests, req.entry.term = term → req.index ≤ s.store.lastSent :=
    fun hcur req hreq hterm => h.index_le _
      (mem_ownIndexes (mem_append_left _ hreq) (hterm.trans (hown hle hcur)))
  exact
    { terms := h.terms.raftStep hr
      bundles := fun req hreq => h.bundles req (hsent req hreq)
      queued := by
        intro e he
        obtain ⟨hv, hled, hsync⟩ := h.queued e he
        have hle : e.expectedTerm ≤ s.mCurTerm := by
          refine h.terms.inFlight_le _ (mem_append_left _ ?_)
          refine mem_map.mpr ⟨(e.expectedTerm, getVersionFromBundle e.events), ?_, rfl⟩
          exact mem_append_right _ (mem_map.mpr ⟨e, he, rfl⟩)
        exact ⟨hv, hr.led_isSome hled, hsync.imp
          (fun hs => hs.step hr hinv (.inr hled) (hindex hle))
          (fun hs => hs.step hr hlen)⟩
      indexes := h.indexes_raftStep hr
      synced := fun hstage => (h.synced hstage).step hr hinv h.terms.started (hindex le_rfl)
      index_le := by
        intro index hi
        obtain ⟨req, hreq, rfl⟩ := mem_map.mp hi
        obtain ⟨hreq, hterm⟩ := mem_filter.mp hreq
        exact h.index_le _ (mem_ownIndexes (hsent req hreq) (by simpa using hterm))
      taskIndex_le := h.taskIndex_le
      taskLed := by
        intro task htask hne
        obtain ⟨hversion, hled, hsettles⟩ := h.taskLed task htask hne
        have hle : task.mTerm ≤ s.mCurTerm :=
          h.terms.inFlight_le _ (mem_append_right _ (mem_map_of_mem htask))
        refine ⟨hversion, hr.led_isSome hled, hsettles.imp (fun hs => ?_) fun hs => hs.step hr hlen⟩
        refine hs.step hr hinv hled fun hcur req hreq hterm hidx => ?_
        have hreq' : req ∈ s.sent := mem_append_left _ hreq
        have hcur' := hown hle hcur
        exact h.taskRequest task htask hne hcur' req hreq' (hterm.trans hcur') hidx
      taskRequest := fun task htask hne hterm req hreq =>
        h.taskRequest task htask hne hterm req (hsent req hreq) }

theorem notTermSet (h : Pipeline s) (he : e ∈ s.store.waiting) (hterm : e.expectedTerm = s.mCurTerm) :
      ∀ tk l, s.takeover = some tk → tk.stage ≠ .termSet l := by
  intro tk l htk hstage
  have htak := h.terms.takeover tk htk
  have hcur := htak.compares
  rw [hstage] at hcur
  have hlt := htak.inFlight_lt (by rw [hstage]; exact nofun) e.expectedTerm (by
    refine mem_append_left _ (mem_map.mpr
      ⟨(e.expectedTerm, getVersionFromBundle e.events), ?_, rfl⟩)
    exact mem_append_right _ (mem_map.mpr ⟨e, he, rfl⟩))
  exact hlt.ne (hterm.trans hcur)

theorem mem_sent_sendNext (hreq : req ∈ (s.sendNext e).sent) :
    req ∈ s.sent ∨ req = ⟨s.store.mLastSentLogIndex + 1, e.expectedTerm, some e.events⟩ := by
  simp only [Node.sent, Node.sendNext, ← append_assoc] at hreq
  exact (mem_append.mp hreq).imp_right mem_singleton.mp

@[simp] theorem lastSent_sendNext (e : PersistEntry) :
    (s.sendNext e).store.lastSent = s.store.mLastSentLogIndex + 1 := by
  simp [RaftEventStore.lastSent, Node.sendNext]

theorem indexes_sendNext (h : Pipeline s) (he : e ∈ s.store.waiting)
    (hlast : s.store.lastSent = s.store.mLastSentLogIndex) (hled : (s.raft.led s.mCurTerm).isSome)
    (hcur : s.raft.currentTerm = s.mCurTerm) :
    (s.raft.log.length :: (s.sendNext e).ownIndexes).Pairwise (· < ·) := by
  have hin := h.indexes hled hcur
  by_cases hterm : e.expectedTerm = s.mCurTerm
  · have hown : (s.sendNext e).ownIndexes = s.ownIndexes ++ [s.store.mLastSentLogIndex + 1] := by
      simp [Node.ownIndexes, Node.sent, Node.sendNext, hterm]
    have hsynced := h.synced (h.notTermSet he hterm)
    rw [← hcur] at hled hsynced
    obtain ⟨own, hown'⟩ := Option.isSome_iff_exists.mp hled
    have hlen : s.raft.log.length ≤ s.store.lastSent := by
      rw [← h.terms.raft.log_eq_of_led hown']
      exact hsynced own hown'
    rw [hown, ← cons_append, ← hlast]
    refine pairwise_append.mpr ⟨hin, pairwise_singleton _ _, fun i hi j hj => ?_⟩
    rw [mem_singleton.mp hj]
    rcases mem_cons.mp hi with rfl | hi
    · exact Nat.lt_succ_of_le hlen
    · exact Nat.lt_succ_of_le (h.index_le i hi)
  · have hown : (s.sendNext e).ownIndexes = s.ownIndexes := by
      simp [Node.ownIndexes, Node.sent, Node.sendNext, hterm]
      rfl
    rwa [hown]

theorem send (h : Pipeline s) (hpopped : s.store.dequeuing = some (.popped e)) : Pipeline (s.sendNext e) := by
  have hwaiting := RaftEventStore.waiting_of_popped hpopped
  have he : e ∈ s.store.waiting := hwaiting ▸ mem_cons_self
  obtain ⟨hversion, hled, hsync⟩ := h.queued e he
  have hlast : s.store.lastSent = s.store.mLastSentLogIndex := by simp [RaftEventStore.lastSent, hpopped]
  have hsucc : s.store.lastSent ≤ (s.sendNext e).store.lastSent := by
    rw [lastSent_sendNext, hlast]
    exact Nat.le_succ _
  exact
    { h with
      terms := h.terms.step (.send e hpopped)
      bundles := by
        intro req hreq
        rcases mem_sent_sendNext hreq with hreq | rfl
        · exact h.bundles req hreq
        · rfl
      queued := by
        intro e' he'
        obtain ⟨hv, hl, hs⟩ := h.queued e' (hwaiting ▸ mem_cons_of_mem _ he')
        exact ⟨hv, hl, hs.imp (fun hs own hown => (hs own hown).trans hsucc) (·.mono hsucc)⟩
      indexes := h.indexes_sendNext he hlast
      synced := fun hstage own hown => (h.synced hstage own hown).trans hsucc
      index_le := by
        intro index hi
        obtain ⟨req, hreq, rfl⟩ := mem_map.mp hi
        obtain ⟨hreq, hterm⟩ := mem_filter.mp hreq
        rcases mem_sent_sendNext hreq with hreq | rfl
        · exact (h.index_le _ (mem_ownIndexes hreq (of_decide_eq_true hterm))).trans hsucc
        · exact (lastSent_sendNext e).ge
      taskIndex_le := by
        intro task htask hterm
        rcases mem_append.mp htask with htask | htask
        · exact (h.taskIndex_le task htask hterm).trans hsucc
        · rw [mem_singleton.mp htask]
          exact (lastSent_sendNext e).ge
      taskLed := by
        intro task htask hne
        rcases mem_append.mp htask with htask | htask
        · exact h.taskLed task htask hne
        · rw [mem_singleton.mp htask]
          refine ⟨hversion, hled, ?_⟩
          change Settles _ _ ∨ Superseded _ _ s.store.mLastSentLogIndex
          rw [← hlast]
          refine hsync.imp_left fun hs own entry hown hentry => ?_
          -- the log of the term ends before the index
          have hlt := hs own hown
          rw [entryAt_succ, getElem?_eq_none hlt] at hentry
          cases hentry
      taskRequest := by
        intro task htask hne hterm req hreq hreqterm hidx
        rcases mem_append.mp htask with htask | htask <;>
          rcases mem_sent_sendNext hreq with hreq | rfl
        · exact h.taskRequest task htask hne hterm req hreq hreqterm hidx
        · have := h.taskIndex_le task htask hterm
          change s.store.mLastSentLogIndex + 1 = task.mIndex at hidx
          omega
        · rw [mem_singleton.mp htask] at hidx
          have := h.index_le _ (mem_ownIndexes hreq hreqterm)
          change req.index = s.store.mLastSentLogIndex + 1 at hidx
          omega
        · rw [mem_singleton.mp htask] }

theorem lastSent_dequeue {store : RaftEventStore} (e : PersistEntry) (rest : List PersistEntry)
    (hidle : store.dequeuing = none) :
    RaftEventStore.lastSent { store with mPersistQueue := rest, dequeuing := some (.popped e) } =
      store.lastSent := by
  simp [RaftEventStore.lastSent, hidle]

theorem lastSent_compareExchange {store : RaftEventStore} {previousLogIndex : ℕ}
    (hprevious : store.dequeuing = some (.sent previousLogIndex)) :
    RaftEventStore.lastSent { store with
      mLastSentLogIndex :=
        if store.mLastSentLogIndex = previousLogIndex then previousLogIndex + 1
        else store.mLastSentLogIndex
      dequeuing := none } = store.lastSent := by
  simp [RaftEventStore.lastSent, hprevious]

theorem compareExchange (h : Pipeline s) {previousLogIndex : ℕ}
    (hprevious : s.store.dequeuing = some (.sent previousLogIndex)) :
    Pipeline { s with store := { s.store with
      mLastSentLogIndex :=
        if s.store.mLastSentLogIndex = previousLogIndex then previousLogIndex + 1
        else s.store.mLastSentLogIndex
      dequeuing := none } } := by
  have hlast := lastSent_compareExchange hprevious
  exact
    { h with
      terms := h.terms.step (.compareExchange previousLogIndex hprevious)
      queued := by
        have hqueued := h.queued
        rw [RaftEventStore.waiting_of_sent hprevious] at hqueued
        rw [hlast]
        exact hqueued
      synced := by rw [hlast]; exact h.synced
      index_le := by rw [hlast]; exact h.index_le
      taskIndex_le := by rw [hlast]; exact h.taskIndex_le }

theorem sendBatch (h : Pipeline s) : Pipeline s.sendBatch := by
  have hsent : s.sendBatch.sent = s.sent := by
    simp [Node.sent, Node.sendBatch, Raft.enqueueClientRequests]
  have hown : s.sendBatch.ownIndexes = s.ownIndexes := by
    simp only [Node.ownIndexes, hsent]
    rfl
  exact
    { h with
      terms := h.terms.step .sendBatch
      bundles := by rw [hsent]; exact h.bundles
      indexes := by rw [hown]; exact h.indexes
      index_le := by rw [hown]; exact h.index_le
      taskRequest := by rw [hsent]; exact h.taskRequest }

/-- Once the leader is ready, nothing on its way and no task is of the term that is taken over. -/
theorem lt_of_takeover (h : Terms s) (htk : s.takeover = some tk) (hne : tk.stage ≠ .waiting) :
    (∀ pair ∈ s.upcoming, pair.1 < tk.curTerm) ∧ (∀ req ∈ s.sent, req.entry.term < tk.curTerm) ∧
      (∀ e ∈ s.store.waiting, e.expectedTerm < tk.curTerm) ∧
      ∀ task ∈ s.tasks, task.mTerm < tk.curTerm := by
  have hlt := (h.takeover tk htk).inFlight_lt hne
  have hup : ∀ pair ∈ s.upcoming, pair.1 < tk.curTerm :=
    fun pair hp => hlt _ (mem_append_left _ (mem_map_of_mem hp))
  refine ⟨hup, fun req hreq => ?_, fun e he => ?_, fun task htask => ?_⟩
  · exact hup (req.entry.term, req.entry.version)
      (mem_append_left _ (mem_map.mpr ⟨req, hreq, rfl⟩))
  · exact hup (e.expectedTerm, getVersionFromBundle e.events)
      (mem_append_right _ (mem_map.mpr ⟨e, he, rfl⟩))
  · exact hlt _ (mem_append_right _ (mem_map_of_mem htask))

theorem ready (h : Pipeline s) (callback : Status) {maxVersion : ℕ} (htk : s.takeover = some tk)
    (hstage : tk.stage = .waiting) (hterm : s.raft.currentTerm = tk.curTerm) (hready : s.leaderIsReady tk.curTerm)
    (hversion : s.lastBundleVersion = some maxVersion) : Pipeline { s with takeover := some { tk with
      stage := .ready s.raft.getLastLogIndex maxVersion } } :=
  { h with
    terms := h.terms.step (.ready callback tk maxVersion htk hstage hterm hready hversion)
    synced := by
      refine fun _ => h.synced fun tk' l htk' hl => ?_
      cases htk.symm.trans htk'
      exact nomatch hstage.symm.trans hl }

theorem setTerm (h : Pipeline s) (callback : Status) {l : ℕ} (htk : s.takeover = some tk)
    (hstage : tk.stage = .cleared l) : Pipeline { s with
      mCurTerm := tk.curTerm
      takeover := some { tk with stage := .termSet l } } := by
  have hne : tk.stage ≠ .waiting := by
    rw [hstage]
    exact nofun
  obtain ⟨-, hsent, -, htasks⟩ := lt_of_takeover h.terms htk hne
  have hindexes : (s.sent.filter (·.entry.term = tk.curTerm)) = [] :=
    filter_eq_nil_iff.mpr fun req hreq => by simpa using (hsent req hreq).ne
  exact
    { h with
      terms := h.terms.step (.setTerm callback tk l htk hstage)
      indexes := by
        intro _ _
        change (_ :: (s.sent.filter (·.entry.term = tk.curTerm)).map ClientRequest.index).Pairwise _
        rw [hindexes]
        exact pairwise_singleton _ _
      synced := fun hstage => absurd rfl (hstage _ l rfl)
      index_le := by
        intro index hi
        change index ∈ (s.sent.filter (·.entry.term = tk.curTerm)).map ClientRequest.index at hi
        rw [hindexes] at hi
        cases hi
      taskIndex_le := fun task htask hterm => absurd hterm (htasks task htask).ne
      taskRequest := fun task htask _ hterm => absurd hterm (htasks task htask).ne }

/-- A call of `dequeue` that has started before may still take one index. -/
theorem le_lastSent (store : RaftEventStore) (l : ℕ) :
    l ≤ RaftEventStore.lastSent { store with mLastSentLogIndex := l } := by
  unfold RaftEventStore.lastSent
  split
  · split_ifs with he
    exacts [he ▸ Nat.le_succ _, le_rfl]
  · exact le_rfl

/-- The first command of the term: what older terms have left behind comes after the noop. -/
theorem lead (h : Pipeline s) (callback : Status) {l : ℕ} (htk : s.takeover = some tk)
    (hstage : tk.stage = .termSet l) : Pipeline { s with
      store := { s.store with mLastSentLogIndex := l }
      takeover := none
      threads := s.threads ++ [⟨tk.request, .passes⟩] } := by
  have htak := h.terms.takeover tk htk
  have hcur := htak.compares
  rw [hstage] at hcur
  obtain ⟨-, hsent, hqueue, htasks⟩ := lt_of_takeover h.terms htk (by rw [hstage]; exact nofun)
  obtain ⟨hcommitted, hown, hnoop⟩ := htak.last l (by rw [hstage]; rfl)
  have hlast := le_lastSent s.store l
  exact
    { h with
      terms := h.terms.step (.lead callback tk l htk hstage)
      queued := by
        intro e he
        obtain ⟨hv, hled, -⟩ := h.queued e he
        exact ⟨hv, hled, .inr ⟨l, hlast, hcommitted, _, hnoop, hqueue e he⟩⟩
      synced := fun _ own hled => (hown own (hcur ▸ hled)).le.trans hlast
      index_le := by
        intro index hi
        obtain ⟨req, hreq, rfl⟩ := mem_map.mp hi
        obtain ⟨hreq, hreqterm⟩ := mem_filter.mp hreq
        exact absurd ((of_decide_eq_true hreqterm).trans hcur) (hsent req hreq).ne
      taskIndex_le := fun task htask htaskterm => absurd (htaskterm.trans hcur) (htasks task htask).ne }

theorem getVersionFromBundle_eq {bundle : List Event} {version : ℕ} (hne : bundle ≠ [])
    (hall : ∀ e ∈ bundle, e.version = version) : getVersionFromBundle bundle = version := by
  cases bundle with
  | nil => exact absurd rfl hne
  | cons e rest => exact hall e mem_cons_self

theorem step (h : Pipeline s) {a : Act} (ht : Steps s a t) : Pipeline t := by
  have hterms := h.terms.step ht
  -- a takeover that has not set its term keeps the index that was sent last
  have hsynced {tk : Takeover} (htk : s.takeover = some tk) (hne : ∀ l, tk.stage ≠ .termSet l) :
      Synced s.raft s.store.lastSent s.mCurTerm :=
    h.synced fun tk' l htk' => Option.some.inj (htk.symm.trans htk') ▸ hne l
  cases ht with
  | raft a r hr => exact h.raftStep hr
  | dequeue e rest hqueue hidle =>
    have hwaiting := RaftEventStore.waiting_dequeue hqueue hidle
    have hlast := lastSent_dequeue e rest hidle
    exact
      { h with
        terms := hterms
        queued := by rw [hwaiting, hlast]; exact h.queued
        synced := by rw [hlast]; exact h.synced
        index_le := by rw [hlast]; exact h.index_le
        taskIndex_le := by rw [hlast]; exact h.taskIndex_le }
  | send e hpopped => exact h.send hpopped
  | compareExchange previousLogIndex hprevious => exact h.compareExchange hprevious
  | sendBatch => exact h.sendBatch
  | takeOver i th curTerm hth hgate hfree hne hidle =>
    exact
      { h with
        terms := hterms
        synced := fun _ => h.synced fun tk l htk => nomatch hfree.symm.trans htk }
  | ready callback tk v htk hstage hterm hready hversion =>
    exact h.ready callback htk hstage hterm hready hversion
  | stepDown callback tk htk hstage hne | callbackFails callback tk l v htk hstage
  | recover callback tk l v htk hstage | recovered callback tk l v htk hstage | clear callback tk l htk hstage =>
    exact
      { h with
        terms := hterms
        synced := fun _ => hsynced htk fun l hl => nomatch hstage.symm.trans hl }
  | setTerm callback tk l htk hstage => exact h.setTerm callback htk hstage
  | lead callback tk l htk hstage => exact h.lead callback htk hstage
  | call i c o next hc hstage => cases o <;> exact { h with terms := hterms }
  | dispatchRead i c r d version response hc =>
    -- the task of a read has no index
    have htask {task : Task} (ht : task ∈ s.tasks ++
        [⟨0, s.mCurTerm, version, c.request.command.isFollowerReadCmd, c.request, response, []⟩]) :
        task ∈ s.tasks ∨ task.mIndex = 0 := by
      refine (mem_append.mp ht).imp_right fun ht => ?_
      rw [mem_singleton.mp ht]
    exact
      { h with
        terms := hterms
        taskIndex_le := fun task ht hterm => (htask ht).elim (h.taskIndex_le task · hterm)
          fun h0 => h0.le.trans (Nat.zero_le _)
        taskLed := fun task ht hne => (htask ht).elim (h.taskLed task · hne) (absurd · hne)
        taskRequest := fun task ht hne =>
          (htask ht).elim (h.taskRequest task · hne) (absurd · hne) }
  | dispatchWrite i c r d response bundle hc hstage hd hout hv hcmd hne hall =>
    have hfree := h.terms.takeover_eq_none hc
    have hsynced := h.synced fun tk l htk => nomatch hfree.symm.trans htk
    exact
      { h with
        terms := hterms
        queued := RaftEventStore.forall_waiting_append h.queued ⟨getVersionFromBundle_eq hne hall,
          h.terms.runs c (mem_of_getElem? hc) hcmd, .inl hsynced⟩ }
  | finish i c r d replies hc hstage hreplies => exact { h with terms := hterms }
  | reply i task committed htask hcommitted =>
    exact
      { h with
        terms := hterms
        taskIndex_le := fun task ht => h.taskIndex_le task (mem_of_mem_eraseIdx ht)
        taskLed := fun task ht => h.taskLed task (mem_of_mem_eraseIdx ht)
        taskRequest := fun task ht => h.taskRequest task (mem_of_mem_eraseIdx ht) }
  | _ => exact { h with terms := hterms }

end Pipeline

theorem Pipeline.entry_eq {s : Node} (h : Pipeline s) {task : Task} (htask : task ∈ s.tasks)
    (hne : task.mIndex ≠ 0) {entry : LogEntry} (hentry : entryAt s.raft.log task.mIndex = some entry)
    (hterm : entry.term = task.mTerm) : entry = ⟨task.mTerm, some task.events⟩ := by
  obtain ⟨-, hled, hsettles | hsuperseded⟩ := h.taskLed task htask hne
  · obtain ⟨own, hown⟩ := Option.isSome_iff_exists.mp hled
    obtain ⟨n, hn⟩ : ∃ n, task.mIndex = n + 1 := ⟨task.mIndex - 1, by omega⟩
    -- the log agrees with the one of the term up to the entry
    have hsame : entryAt own task.mIndex = some entry := by
      rw [hn, entryAt_succ] at hentry
      have hlt := (List.getElem?_eq_some_iff.mp hentry).1
      have htake := h.terms.raft.agrees n hlt entry hentry own (hterm ▸ hown)
      rw [hn, ← entryAt_eq_of_take htake le_rfl]
      exact hentry
    obtain ⟨term, bundle⟩ := entry
    have hbundle := hsettles own _ hown hsame
    cases hterm
    cases hbundle
    rfl
  · exact absurd hterm (hsuperseded.entry_term_ne h.terms.raft hentry)

theorem Node.entryAt_of_isCommitted {s : Node} (hinv : s.storage.Inv) {task : Task}
    (hne : task.mIndex ≠ 0) (h : s.isCommitted task = some true) :
    task.mIndex ≤ s.raft.committed ∧
      ∃ entry, entryAt s.raft.log task.mIndex = some entry ∧ entry.term = task.mTerm := by
  unfold Node.isCommitted Raft.waitTillCommittedOrQuit at h
  rw [if_pos hne] at h
  split_ifs at h with hterm hquit hcommit
  · cases h
  · obtain ⟨entry, hentry, hdecide⟩ := Option.map_eq_some_iff.mp h
    exact ⟨(Nat.le_of_not_lt hcommit).trans hinv.commitIndex_le, entry, hentry,
      of_decide_eq_true hdecide⟩

theorem Recoverable.pipeline {raft : Raft} {db : RocksDBKVStore} (h : Recoverable raft db) (now : ℕ) :
    Pipeline (recoverSelf raft db now) := by
  have hled (term : ℕ) : ¬(raft.led term).isSome := by simp [h.led]
  exact
    { terms := h.terms now
      bundles := by simp [Node.sent, recoverSelf, h.requests]
      queued := fun _ he => nomatch he
      indexes := fun hl => absurd hl (hled _)
      synced := fun _ own hown => nomatch (h.led _).symm.trans hown
      index_le := by simp [Node.ownIndexes, Node.sent, recoverSelf, h.requests]
      taskIndex_le := fun _ htask => nomatch htask
      taskLed := fun _ htask => nomatch htask
      taskRequest := fun _ htask => nomatch htask }

end Goblin.Engine
