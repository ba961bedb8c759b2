import Goblin.Engine.Acknowledge

/-! The indexes that the persist loop asks for in a term. -/
namespace Goblin.Engine

open Model Store Lib Execution List

/-- A term that begins after the index of its noop, or an index that is asked for in a term. -/
inductive Sending
  | lead (term lastLogIndex : ℕ)
  | send (term index : ℕ)
  deriving DecidableEq, Repr

/-- What an action does to the order of indexes. -/
def sending (s : Node) : Act → List Sending
  | .becomeLeader _ =>
    match s.takeover with
    | some ⟨_, curTerm, .termSet lastLogIndex⟩ => [.lead curTerm lastLogIndex]
    | _ => []
  | .send =>
    match s.store.dequeuing with
    | some (.popped e) => [.send e.expectedTerm (s.store.mLastSentLogIndex + 1)]
    | _ => []
  | _ => []

/-- The index of a request of the term. -/
def Sending.indexIn (term : ℕ) : Sending → Option ℕ
  | .send term' index => if term' = term then some index else none
  | .lead _ _ => none

/-- The indexes that were asked for in a term, in order. -/
def indexesIn (term : ℕ) (history : List Sending) : List ℕ :=
  history.filterMap (Sending.indexIn term)

/-- When a new leader sets the index, nothing of an older term is left in the persist queue or was taken from it and
not sent yet, and no call of `dequeue` is about to replace that very index. -/
def Drained (s : Node) : Act → Prop
  | .becomeLeader _ => ∀ tk ∈ s.takeover, ∀ lastLogIndex, tk.stage = .termSet lastLogIndex →
      s.store.waiting = [] ∧ s.store.dequeuing ≠ some (.sent lastLogIndex)
  | _ => True

/-- A thread has set the term and not the index yet. -/
def Node.TermSet (s : Node) : Prop :=
  ∃ tk l, s.takeover = some tk ∧ tk.stage = .termSet l

/-- No command has run in the term. -/
def Node.Unused (s : Node) (term : ℕ) : Prop :=
  s.mCurTerm < term ∨ s.mCurTerm = term ∧ s.TermSet

/-- The last term that has begun: its requests stand in the queue alone, and its indexes are the next
ones. -/
structure Leads (s : Node) (history : List Sending) (term lastLogIndex : ℕ) : Prop where
  led : .lead term lastLogIndex ∈ history
  unique : ∀ l, .lead term l ∈ history → l = lastLogIndex
  queue : ∀ e ∈ s.store.waiting, e.expectedTerm = term
  lastSent : s.store.lastSent = lastLogIndex + (indexesIn term history).length
  current : ¬s.TermSet → s.mCurTerm = term

/-- No term has begun yet. -/
structure Waits (s : Node) (history : List Sending) : Prop where
  led : ∀ term l, .lead term l ∉ history
  queue : s.store.waiting = []
  current : ¬s.TermSet → s.mCurTerm = 0

structure Consecutive (s : Node) (history : List Sending) : Prop where
  pipeline : Pipeline s
  each : ∀ term l, .lead term l ∈ history →
    indexesIn term history = List.range' (l + 1) (indexesIn term history).length ∧
      entryAt s.raft.log l = some ⟨term, none⟩ ∧ l ≤ s.raft.committed
  unused : ∀ term, s.Unused term → indexesIn term history = [] ∧ ∀ l, .lead term l ∉ history
  last : Waits s history ∨ ∃ term l, Leads s history term l

@[simp] theorem indexesIn_lead (term term' l : ℕ) (history : List Sending) :
    indexesIn term (history ++ [.lead term' l]) = indexesIn term history := by
  simp [indexesIn, Sending.indexIn]

theorem indexesIn_send (term term' index : ℕ) (history : List Sending) :
    indexesIn term (history ++ [.send term' index]) =
      indexesIn term history ++ if term' = term then [index] else [] := by
  by_cases h : term' = term <;> simp [indexesIn, Sending.indexIn, h]

theorem lastSent_of_ne {store : RaftEventStore} {l : ℕ} (h : store.dequeuing ≠ some (.sent l)) :
    RaftEventStore.lastSent { store with mLastSentLogIndex := l } = l := by
  unfold RaftEventStore.lastSent
  split
  · rename_i previousLogIndex hprevious
    refine if_neg fun he => h ?_
    rw [show l = previousLogIndex from he]
    exact hprevious
  · rfl

namespace Consecutive

variable {s t : Node} {history : List Sending}

theorem frame (h : Consecutive s history) (hpipeline : Pipeline t) (hraft : t.raft = s.raft)
    (hqueue : t.store.waiting = s.store.waiting)
    (hlast : t.store.lastSent = s.store.lastSent) (hcur : t.mCurTerm = s.mCurTerm)
    (hset : t.TermSet ↔ s.TermSet) : Consecutive t history where
  pipeline := hpipeline
  each := hraft ▸ h.each
  unused := by
    intro term hterm
    refine h.unused term ?_
    unfold Node.Unused at hterm ⊢
    rwa [hcur, hset] at hterm
  last := by
    refine h.last.imp (fun hw => ?_) fun ⟨term, l, hl⟩ => ⟨term, l, ?_⟩
    · exact ⟨hw.led, hqueue.trans hw.queue, fun hn => hcur.trans (hw.current (hset.not.mp hn))⟩
    · exact
        { hl with
          queue := hqueue ▸ hl.queue
          lastSent := hlast.trans hl.lastSent
          current := fun hn => hcur.trans (hl.current (hset.not.mp hn)) }

theorem raftStep (h : Consecutive s history) {a : Raft.Act} {r : Raft} (hr : s.raft.Steps r) :
    Consecutive { s with raft := r } history where
  pipeline := h.pipeline.step (.raft a r hr)
  each := by
    intro term l hl
    obtain ⟨hrange, hnoop, hle⟩ := h.each term l hl
    exact ⟨hrange, (hr.entryAt_eq h.pipeline.terms.storage.committed_le hle).trans hnoop,
      hle.trans hr.committed_le⟩
  unused := h.unused
  last := h.last.imp (fun hw => { hw with }) fun ⟨term, l, hl⟩ => ⟨term, l, { hl with }⟩

theorem send (h : Consecutive s history) {e : PersistEntry} (hpopped : s.store.dequeuing = some (.popped e)) :
    Consecutive (s.sendNext e)
      (history ++ [.send e.expectedTerm (s.store.mLastSentLogIndex + 1)]) := by
  have hqueue := RaftEventStore.waiting_of_popped hpopped
  have hlast : s.store.lastSent = s.store.mLastSentLogIndex := by simp [RaftEventStore.lastSent, hpopped]
  have hlead {term l : ℕ} {index : ℕ} :
      .lead term l ∈ history ++ [.send e.expectedTerm index] ↔ .lead term l ∈ history := by simp
  rcases h.last with hw | ⟨term, l, hl⟩
  · exact absurd (hqueue.symm.trans hw.queue) (cons_ne_nil _ _)
  obtain rfl : e.expectedTerm = term := hl.queue e (hqueue ▸ mem_cons_self)
  have hindexes : indexesIn e.expectedTerm
      (history ++ [.send e.expectedTerm (s.store.mLastSentLogIndex + 1)]) =
        List.range' (l + 1) ((indexesIn e.expectedTerm history).length + 1) := by
    have hsent := hl.lastSent
    rw [hlast] at hsent
    rw [indexesIn_send, if_pos rfl, range'_concat, ← (h.each _ l hl.led).1, hsent]
    simp [Nat.add_right_comm]
  refine
    { pipeline := h.pipeline.step (.send e hpopped)
      each := fun term l' hl' => ?_
      unused := fun term hterm => ?_
      last := .inr ⟨e.expectedTerm, l, ?_⟩ }
  · rw [hlead] at hl'
    refine ⟨?_, (h.each term l' hl').2⟩
    by_cases hterm : e.expectedTerm = term
    · subst hterm
      rw [hl.unique l' hl', hindexes, length_range']
    · rw [indexesIn_send, if_neg hterm, append_nil]
      exact (h.each term l' hl').1
  · obtain ⟨hnil, hnot⟩ := h.unused term hterm
    refine ⟨?_, fun l' hl' => hnot l' (hlead.mp hl')⟩
    have hne : e.expectedTerm ≠ term := by
      rintro rfl
      exact hnot l hl.led
    rw [indexesIn_send, if_neg hne, hnil]
    rfl
  · exact
      { led := hlead.mpr hl.led
        unique := fun l' hl' => hl.unique l' (hlead.mp hl')
        queue := fun e' he' => hl.queue e' (hqueue ▸ mem_cons_of_mem _ he')
        lastSent := by
          have hsent := hl.lastSent
          rw [hlast] at hsent
          rw [hindexes, Pipeline.lastSent_sendNext, length_range', hsent]
          rfl
        current := hl.current }

theorem not_termSet {tk : Takeover} (htk : s.takeover = some tk) (hne : ∀ l, tk.stage ≠ .termSet l) :
    ¬s.TermSet := by
  rintro ⟨tk', l, htk', hl⟩
  cases htk.symm.trans htk'
  exact hne l hl

theorem not_termSet_of_free (hfree : s.takeover = none) : ¬s.TermSet := by
  rintro ⟨tk, l, htk, -⟩
  cases hfree.symm.trans htk

theorem setTerm (h : Consecutive s history) (callback : Status) {tk : Takeover} {l : ℕ}
    (htk : s.takeover = some tk) (hstage : tk.stage = .cleared l) :
    Consecutive { s with
      mCurTerm := tk.curTerm
      takeover := some { tk with stage := .termSet l } } history := by
  have hlt : s.mCurTerm < tk.curTerm := by
    have hcompares := (h.pipeline.terms.takeover tk htk).compares
    rwa [hstage] at hcompares
  have hset : Node.TermSet { s with
      mCurTerm := tk.curTerm
      takeover := some { tk with stage := .termSet l } } := ⟨_, l, rfl, rfl⟩
  refine
    { pipeline := h.pipeline.step (.setTerm callback tk l htk hstage)
      each := h.each
      unused := fun term hterm => h.unused term (.inl ?_)
      last := h.last.imp (fun hw => { hw with current := fun hn => absurd hset hn })
        fun ⟨term, l, hl⟩ => ⟨term, l, { hl with current := fun hn => absurd hset hn }⟩ }
  rcases hterm with hterm | ⟨rfl, -⟩
  · exact hlt.trans hterm
  · exact hlt

theorem lead (h : Consecutive s history) (callback : Status) {tk : Takeover} {l : ℕ}
    (htk : s.takeover = some tk) (hstage : tk.stage = .termSet l)
    (hqueue : s.store.waiting = []) (hdequeuing : s.store.dequeuing ≠ some (.sent l)) :
    Consecutive { s with
      store := { s.store with mLastSentLogIndex := l }
      takeover := none
      threads := s.threads ++ [⟨tk.request, .passes⟩] } (history ++ [.lead tk.curTerm l]) := by
  have htak := h.pipeline.terms.takeover tk htk
  have hcur : s.mCurTerm = tk.curTerm := by
    have hcompares := htak.compares
    rwa [hstage] at hcompares
  obtain ⟨hnil, hnot⟩ := h.unused tk.curTerm (.inr ⟨hcur, tk, l, htk, hstage⟩)
  obtain ⟨hcommitted, -, hnoop⟩ := htak.last l (by rw [hstage]; rfl)
  refine
    { pipeline := h.pipeline.step (.lead callback tk l htk hstage)
      each := fun term l' hl' => ?_
      unused := fun term hterm => ?_
      last := .inr ⟨tk.curTerm, l, ?_⟩ }
  · rw [indexesIn_lead]
    rcases mem_append.mp hl' with hl' | hl'
    · exact h.each term l' hl'
    · cases mem_singleton.mp hl'
      rw [hnil]
      exact ⟨rfl, hnoop, hcommitted⟩
  · rw [indexesIn_lead]
    have hlt : s.mCurTerm < term := hterm.resolve_right fun hset => not_termSet_of_free rfl hset.2
    obtain ⟨hnil', hnot'⟩ := h.unused term (.inl hlt)
    refine ⟨hnil', fun l' hl' => ?_⟩
    rcases mem_append.mp hl' with hl' | hl'
    · exact hnot' l' hl'
    · cases mem_singleton.mp hl'
      exact hlt.ne hcur
  · refine
      { led := mem_append_right _ (mem_singleton_self _)
        unique := fun l' hl' => ?_
        queue := fun e he => absurd (hqueue ▸ he : e ∈ []) not_mem_nil
        lastSent := ?_
        current := fun _ => hcur }
    · rcases mem_append.mp hl' with hl' | hl'
      · exact absurd hl' (hnot l')
      · cases mem_singleton.mp hl'
        rfl
    · rw [indexesIn_lead, hnil]
      exact lastSent_of_ne hdequeuing

theorem nil (h : Consecutive s history) : Consecutive s (history ++ []) := by
  rwa [append_nil]

theorem sending_of_ne {callback : Status} {tk : Takeover} (htk : s.takeover = some tk)
    (hne : ∀ l, tk.stage ≠ .termSet l) : sending s (.becomeLeader callback) = [] := by
  obtain ⟨request, curTerm, stage⟩ := tk
  simp only [sending, htk]
  split
  · rename_i heq
    cases heq
    exact absurd rfl (hne _)
  · rfl

theorem stage (h : Consecutive s history) {callback : Status} {tk : Takeover}
    (htk : s.takeover = some tk) (hne : ∀ l, tk.stage ≠ .termSet l) (hpipeline : Pipeline t)
    (hraft : t.raft = s.raft) (hstore : t.store = s.store) (hcur : t.mCurTerm = s.mCurTerm)
    (hset : ¬t.TermSet) : Consecutive t (history ++ sending s (.becomeLeader callback)) := by
  rw [sending_of_ne htk hne, append_nil]
  exact h.frame hpipeline hraft (by rw [hstore]) (by rw [hstore]) hcur
    (iff_of_false hset (not_termSet htk hne))

theorem step (h : Consecutive s history) {a : Act} (hG : Drained s a) (ht : Steps s a t) :
    Consecutive t (history ++ sending s a) := by
  have hpipeline := h.pipeline.step ht
  cases ht with
  | raft a r hr => exact (h.raftStep (a := a) hr).nil
  | dequeue e rest hqueue hidle =>
    exact (h.frame hpipeline rfl (RaftEventStore.waiting_dequeue hqueue hidle)
      (Pipeline.lastSent_dequeue e rest hidle) rfl Iff.rfl).nil
  | send e hpopped =>
    simp only [sending, hpopped]
    exact h.send hpopped
  | compareExchange previousLogIndex hprevious =>
    exact (h.frame hpipeline rfl (RaftEventStore.waiting_of_sent hprevious).symm
      (Pipeline.lastSent_compareExchange hprevious) rfl Iff.rfl).nil
  | sendBatch =>
    have hlast : Waits s.sendBatch history ∨ ∃ term l, Leads s.sendBatch history term l :=
      h.last.imp (fun hw => { hw with }) fun ⟨term, l, hl⟩ => ⟨term, l, { hl with }⟩
    exact { h with pipeline := hpipeline, last := hlast : Consecutive s.sendBatch history }.nil
  | takeOver i th curTerm hth hgate hfree hne hidle =>
    refine (h.frame hpipeline rfl rfl rfl rfl (iff_of_false ?_ (not_termSet_of_free hfree))).nil
    exact not_termSet rfl fun l => nofun
  | stepDown callback tk htk hstage hne | callbackFails callback tk l v htk hstage =>
    exact h.stage htk (by simp [hstage]) hpipeline rfl rfl rfl (not_termSet_of_free rfl)
  | ready callback tk v htk hstage hterm hready hversion | recover callback tk l v htk hstage =>
    exact h.stage htk (by simp [hstage]) hpipeline rfl rfl rfl (not_termSet rfl fun l => nofun)
  | recovered callback tk l v htk hstage | clear callback tk l htk hstage =>
    exact h.stage htk (by simp [hstage]) hpipeline rfl rfl rfl (not_termSet rfl fun l => nofun)
  | setTerm callback tk l htk hstage =>
    rw [sending_of_ne htk (by simp [hstage]), append_nil]
    exact h.setTerm callback htk hstage
  | lead callback tk l htk hstage =>
    obtain ⟨hqueue, hdequeuing⟩ := hG tk htk l hstage
    have hsending : sending s (.becomeLeader callback) = [.lead tk.curTerm l] := by
      obtain ⟨request, curTerm, stage⟩ := tk
      cases hstage
      simp only [sending, htk]
    rw [hsending]
    exact h.lead callback htk hstage hqueue hdequeuing
  | call i c o next hc hstage => cases o <;> exact (h.frame hpipeline rfl rfl rfl rfl Iff.rfl).nil
  | dispatchWrite i c r d response bundle hc hstage hd hout hv hcmd =>
    have hfree := not_termSet_of_free (h.pipeline.terms.takeover_eq_none hc)
    refine nil ?_
    rcases h.last with hw | ⟨term, l, hl⟩
    · have hled := h.pipeline.terms.runs c (mem_of_getElem? hc) hcmd
      rw [hw.current hfree, h.pipeline.terms.raft.led_zero] at hled
      cases hled
    · exact { h with
        pipeline := hpipeline
        last := .inr ⟨term, l,
          { hl with queue := RaftEventStore.forall_waiting_append hl.queue (hl.current hfree) }⟩ }
  | _ => exact (h.frame hpipeline rfl rfl rfl rfl Iff.rfl).nil

end Consecutive

/-- In every run in which the persist queue is drained whenever a new leader sets the index, the k-th
request of a term asks for the k-th index after the noop of the term. -/
theorem indexesIn_of_drained {raft : Raft} {db : RocksDBKVStore} (hrec : Recoverable raft db) (now : ℕ)
    {acts : List Act} (hG : Meets step Drained (recoverSelf raft db now) acts) {t : Node}
    {history : List Sending}
    (ht : exec (traced step sending) (recoverSelf raft db now, []) acts = some (t, history))
    {term lastLogIndex : ℕ} (hlead : .lead term lastLogIndex ∈ history) :
    indexesIn term history = List.range' (lastLogIndex + 1) (indexesIn term history).length ∧
      entryAt t.raft.log lastLogIndex = some ⟨term, none⟩ := by
  have hinit : Consecutive (recoverSelf raft db now) [] :=
    { pipeline := hrec.pipeline now
      each := fun _ _ hl => nomatch hl
      unused := fun _ _ => ⟨rfl, fun _ hl => nomatch hl⟩
      last := .inl ⟨fun _ _ => not_mem_nil, rfl, fun _ => rfl⟩ }
  have hinv : Consecutive t history :=
    exec_traced_invariant (fun s a u os hs hg hu => hs.step hg (steps_of_step hu)) hinit hG ht
  obtain ⟨hrange, hnoop, -⟩ := hinv.each term lastLogIndex hlead
  exact ⟨hrange, hnoop⟩

theorem drained_firstPut : Meets step Drained (recoverSelf {} {} 0) (firstPut ++ persistPut) := by
  iterate 8 refine meets_cons rfl trivial ?_
  iterate 6 refine meets_cons rfl (fun _ _ _ _ => ⟨rfl, nofun⟩) ?_
  iterate 12 refine meets_cons rfl trivial ?_
  trivial

theorem firstPut_indexesIn : ∃ t history,
    exec (traced step sending) (recoverSelf {} {} 0, []) (firstPut ++ persistPut) = some (t, history) ∧
      .lead 1 1 ∈ history ∧ indexesIn 1 history = [2] ∧
      indexesIn 1 history = List.range' 2 (indexesIn 1 history).length := by
  obtain ⟨t, history, ht, hlead, hindexes⟩ : ∃ t history,
      exec (traced step sending) (recoverSelf {} {} 0, []) (firstPut ++ persistPut) = some (t, history) ∧
      .lead 1 1 ∈ history ∧ indexesIn 1 history = [2] := ⟨_, _, rfl, by decide, rfl⟩
  exact ⟨t, history, ht, hlead, hindexes,
    (indexesIn_of_drained recoverable_empty 0 drained_firstPut ht hlead).1⟩

/-- The node is elected again before the persist loop has come to the first put, and takes another. -/
def secondPut : List Act :=
  [.raft (.elect 2), .raft (.commit 2), .loadBundles 1, .refreshRoleAndTerm,
    .submit (.put { key := "k", value := "w" }), .advance 0, .advance 0, .advance 0,
    .becomeLeader .ok, .becomeLeader .ok, .becomeLeader .ok, .becomeLeader .ok, .becomeLeader .ok,
    .becomeLeader .ok, .start 0 .ok, .call 0, .call 0, .dispatch 0, .finish 0, .dequeue, .send, .compareExchange,
    .dequeue, .send]

/-- The put that was left over takes the index of the new one, which asks for an index that Raft does
not expect. -/
theorem secondPut_skips_index : ∃ t history,
    exec (traced step sending) (recoverSelf {} {} 0, []) (firstPut ++ secondPut) = some (t, history) ∧
      .lead 2 2 ∈ history ∧ indexesIn 2 history = [4] ∧ t.raft.log.length = 2 ∧ t.raft.currentTerm = 2 :=
  ⟨_, _, rfl, by decide, rfl, rfl, rfl⟩

end Goblin.Engine
