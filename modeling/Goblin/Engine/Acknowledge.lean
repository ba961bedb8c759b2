import Goblin.Engine.Pipeline

/-! Writes that are answered with success: what is in the log for them. -/
namespace Goblin.Engine

open Model Store Lib Execution List

/-- The write task that an action answers with success, if it does. -/
def acknowledged (s : Node) : Act → List Task
  | .replyTask i =>
    match s.tasks[i]? with
    | some task => if task.mIndex ≠ 0 ∧ s.isCommitted task = some true then [task] else []
    | none => []
  | _ => []

/-- Two tasks share a place in the log only if no entry of their term is left there. -/
def Apart (r : Raft) (a b : Task) : Prop :=
  a.mIndex ≠ 0 → a.mTerm = b.mTerm → a.mIndex = b.mIndex → Superseded r a.mTerm (a.mIndex - 1)

theorem Apart.symm {r : Raft} {a b : Task} (h : Apart r a b) : Apart r b a := by
  intro hne hterm hindex
  rw [hterm, hindex]
  exact h (hindex ▸ hne) hterm.symm hindex.symm

theorem Apart.step {r t : Raft} {a b : Task} (h : Apart r a b) (ht : r.Steps t)
    (hlen : r.committed ≤ r.log.length) : Apart t a b :=
  fun hne hterm hindex => (h hne hterm hindex).step ht hlen

/-- The tasks in `acks` were answered with success, those of the node are not answered yet. -/
structure Acks (s : Node) (acks : List Task) : Prop where
  pipeline : Pipeline s
  durable : ∀ a ∈ acks, a.mIndex ≤ s.raft.committed ∧
    entryAt s.raft.log a.mIndex = some ⟨a.mTerm, some a.events⟩
  distinct : acks.Pairwise (fun a b => a.mIndex ≠ b.mIndex)
  apart : (acks ++ s.tasks).Pairwise (Apart s.raft)
  queued : ∀ e ∈ s.store.waiting,
    (∀ a ∈ acks ++ s.tasks, a.mTerm = e.expectedTerm → a.mIndex ≤ s.store.lastSent) ∨
      Superseded s.raft e.expectedTerm s.store.lastSent
  index_le : ∀ a ∈ acks, a.mTerm = s.mCurTerm → a.mIndex ≤ s.store.lastSent
  term_le : ∀ a ∈ acks, a.mTerm ≤ s.mCurTerm
  takeover : ∀ tk, s.takeover = some tk → tk.stage ≠ .waiting → ∀ a ∈ acks, a.mTerm < tk.curTerm

namespace Acks

variable {s t : Node} {acks : List Task}

theorem raftStep (h : Acks s acks) {a : Raft.Act} {r : Raft} (hr : s.raft.Steps r) :
    Acks { s with raft := r } acks := by
  have hlen := h.pipeline.terms.storage.committed_le
  exact
    { h with
      pipeline := h.pipeline.step (.raft a r hr)
      durable := by
        intro b hb
        obtain ⟨hle, hentry⟩ := h.durable b hb
        exact ⟨hle.trans hr.committed_le, (hr.entryAt_eq hlen hle).trans hentry⟩
      apart := h.apart.imp fun hab => hab.step hr hlen
      queued := fun e he => (h.queued e he).imp_right fun hs => hs.step hr hlen }

theorem send (h : Acks s acks) {e : PersistEntry} (hpopped : s.store.dequeuing = some (.popped e)) :
    Acks (s.sendNext e) acks := by
  have hwaiting := RaftEventStore.waiting_of_popped hpopped
  have hlast : s.store.lastSent = s.store.mLastSentLogIndex := by simp [RaftEventStore.lastSent, hpopped]
  have hsucc : s.store.lastSent ≤ (s.sendNext e).store.lastSent := by
    rw [Pipeline.lastSent_sendNext, hlast]
    exact Nat.le_succ _
  have htasks : acks ++ (s.sendNext e).tasks = (acks ++ s.tasks) ++
      [⟨s.store.mLastSentLogIndex + 1, e.expectedTerm, e.version, false, e.request, e.response,
        e.events⟩] := (append_assoc _ _ _).symm
  exact
    { h with
      pipeline := h.pipeline.step (.send e hpopped)
      apart := by
        rw [htasks]
        refine pairwise_append.mpr ⟨h.apart, pairwise_singleton _ _, fun a ha b hb => ?_⟩
        rw [mem_singleton.mp hb]
        intro _ hterm hindex
        rcases h.queued e (hwaiting ▸ mem_cons_self) with hle | hs
        · have := hle a ha hterm
          change a.mIndex = s.store.mLastSentLogIndex + 1 at hindex
          omega
        · rw [hterm, hindex]
          exact hlast ▸ hs
      queued := by
        intro e' he'
        rw [htasks]
        refine (h.queued e' (hwaiting ▸ mem_cons_of_mem _ he')).imp (fun hle a ha hterm => ?_)
          (·.mono hsucc)
        rcases mem_append.mp ha with ha | ha
        · exact (hle a ha hterm).trans hsucc
        · rw [mem_singleton.mp ha, Pipeline.lastSent_sendNext]
      index_le := fun a ha hterm => (h.index_le a ha hterm).trans hsucc }

theorem compareExchange (h : Acks s acks) {previousLogIndex : ℕ}
    (hprevious : s.store.dequeuing = some (.sent previousLogIndex)) :
    Acks { s with store := { s.store with
      mLastSentLogIndex :=
        if s.store.mLastSentLogIndex = previousLogIndex then previousLogIndex + 1
        else s.store.mLastSentLogIndex
      dequeuing := none } } acks := by
  have hlast := Pipeline.lastSent_compareExchange hprevious
  exact
    { h with
      pipeline := h.pipeline.step (.compareExchange previousLogIndex hprevious)
      queued := by
        have hqueued := h.queued
        rw [RaftEventStore.waiting_of_sent hprevious] at hqueued
        rw [hlast]
        exact hqueued
      index_le := by rw [hlast]; exact h.index_le }

theorem setTerm (h : Acks s acks) (callback : Status) {tk : Takeover} {l : ℕ}
    (htk : s.takeover = some tk) (hstage : tk.stage = .cleared l) :
    Acks { s with
      mCurTerm := tk.curTerm
      takeover := some { tk with stage := .termSet l } } acks := by
  have hlt := h.takeover tk htk (by rw [hstage]; exact nofun)
  refine
    { h with
      pipeline := h.pipeline.step (.setTerm callback tk l htk hstage)
      index_le := fun a ha hterm => absurd hterm (hlt a ha).ne
      term_le := fun a ha => (hlt a ha).le
      takeover := fun tk' htk' _ => ?_ }
  cases htk'
  exact hlt

theorem lead (h : Acks s acks) (callback : Status) {tk : Takeover} {l : ℕ} (htk : s.takeover = some tk)
    (hstage : tk.stage = .termSet l) :
    Acks { s with
      store := { s.store with mLastSentLogIndex := l }
      takeover := none
      threads := s.threads ++ [⟨tk.request, .passes⟩] } acks := by
  have hne : tk.stage ≠ .waiting := by
    rw [hstage]
    exact nofun
  have hpipeline := h.pipeline.lead callback htk hstage
  have hcur := (h.pipeline.terms.takeover tk htk).compares
  rw [hstage] at hcur
  obtain ⟨-, -, hqueue, -⟩ := Pipeline.lt_of_takeover h.pipeline.terms htk hne
  obtain ⟨hcommitted, -, hnoop⟩ :=
    (h.pipeline.terms.takeover tk htk).last l (by rw [hstage]; rfl)
  exact
    { h with
      pipeline := hpipeline
      queued := fun e he => .inr
        ⟨l, Pipeline.le_lastSent s.store l, hcommitted, _, hnoop, hqueue e he⟩
      index_le := fun a ha haterm => absurd (haterm.trans hcur) (h.takeover tk htk hne a ha).ne
      takeover := nofun }

/-- A read has no place in the log. -/
theorem dispatchRead (h : Acks s acks) {task : Task} {running : List Running} (h0 : task.mIndex = 0)
    (hpipeline : Pipeline { s with running := running, tasks := s.tasks ++ [task] }) :
    Acks { s with running := running, tasks := s.tasks ++ [task] } acks := by
  refine { h with pipeline := hpipeline, apart := ?_, queued := fun e he => (h.queued e he).imp_left ?_ }
  · change (acks ++ (s.tasks ++ [task])).Pairwise _
    rw [← append_assoc]
    refine pairwise_append.mpr ⟨h.apart, pairwise_singleton _ _, fun a _ b hb hne _ hindex => ?_⟩
    rw [mem_singleton.mp hb, h0] at hindex
    exact absurd hindex hne
  · intro hle a ha hterm
    change a ∈ acks ++ (s.tasks ++ [task]) at ha
    rw [← append_assoc] at ha
    rcases mem_append.mp ha with ha | ha
    · exact hle a ha hterm
    · rw [mem_singleton.mp ha, h0]
      exact Nat.zero_le _

theorem erase (h : Acks s acks) {i : ℕ} {replies : List Reply} {toUpdate : List Update}
    (hpipeline : Pipeline { s with
      tasks := s.tasks.eraseIdx i
      replies := replies
      toUpdate := toUpdate }) :
    Acks { s with tasks := s.tasks.eraseIdx i, replies := replies, toUpdate := toUpdate } acks := by
  have hsub : (acks ++ s.tasks.eraseIdx i).Sublist (acks ++ s.tasks) :=
    (eraseIdx_sublist _ _).append_left acks
  exact
    { h with
      pipeline := hpipeline
      apart := h.apart.sublist hsub
      queued := fun e he => (h.queued e he).imp_left fun hle a ha => hle a (hsub.subset ha) }

theorem acknowledge (h : Acks s acks) {i : ℕ} {task : Task} {replies : List Reply} {toUpdate : List Update}
    (htask : s.tasks[i]? = some task) (hne : task.mIndex ≠ 0) (hcommitted : s.isCommitted task = some true)
    (hpipeline : Pipeline { s with
      tasks := s.tasks.eraseIdx i
      replies := replies
      toUpdate := toUpdate }) :
    Acks { s with tasks := s.tasks.eraseIdx i, replies := replies, toUpdate := toUpdate }
      (acks ++ [task]) := by
  have hmem := mem_of_getElem? htask
  obtain ⟨hle, entry, hentry, hterm⟩ :=
    Node.entryAt_of_isCommitted h.pipeline.terms.storage hne hcommitted
  have hbundle := h.pipeline.entry_eq hmem hne hentry hterm
  have hperm : ((acks ++ [task]) ++ s.tasks.eraseIdx i).Perm (acks ++ s.tasks) := by
    obtain ⟨hi, rfl⟩ := List.getElem?_eq_some_iff.mp htask
    rw [append_assoc]
    exact (getElem_cons_eraseIdx_perm hi).append_left acks
  have hinFlight : task.mTerm ∈ s.inFlight := mem_append_right _ (mem_map_of_mem hmem)
  have hforall {P : Task → Prop} (hacks : ∀ a ∈ acks, P a) (ht : P task) : ∀ a ∈ acks ++ [task], P a := by
    intro a ha
    rcases mem_append.mp ha with ha | ha
    · exact hacks a ha
    · exact mem_singleton.mp ha ▸ ht
  exact
    { pipeline := hpipeline
      durable := hforall h.durable ⟨hle, hentry.trans (congrArg some hbundle)⟩
      distinct := by
        refine pairwise_append.mpr ⟨h.distinct, pairwise_singleton _ _, fun a ha b hb => ?_⟩
        rw [mem_singleton.mp hb]
        intro hindex
        -- the entry has the terms of both tasks, so neither of them can be superseded
        have hsame := (h.durable a ha).2
        rw [hindex, hentry, hbundle] at hsame
        have hterms : a.mTerm = task.mTerm := (congrArg LogEntry.term (Option.some.inj hsame)).symm
        have hs := (pairwise_append.mp h.apart).2.2 a ha task hmem (hindex ▸ hne) hterms hindex
        rw [hterms, hindex] at hs
        exact hs.entry_term_ne h.pipeline.terms.raft hentry hterm
      apart := (hperm.pairwise_iff Apart.symm).mpr h.apart
      queued := fun e he => (h.queued e he).imp_left fun hle a ha => hle a (hperm.subset ha)
      index_le := hforall h.index_le fun hcur => h.pipeline.taskIndex_le task hmem hcur
      term_le := hforall h.term_le (h.pipeline.terms.inFlight_le _ hinFlight)
      takeover := fun tk htk hstage => hforall (h.takeover tk htk hstage)
        ((h.pipeline.terms.takeover tk htk).inFlight_lt hstage _ hinFlight) }

theorem step_of_ne (h : Acks s acks) {a : Act} (ht : Steps s a t) (hne : ∀ i, a ≠ .replyTask i) :
    Acks t acks := by
  have hpipeline := h.pipeline.step ht
  -- a later stage of a takeover that was found ready
  have hstage {tk : Takeover} {stage : TakeoverStage} (htk : s.takeover = some tk)
      (hne : tk.stage ≠ .waiting) (tk' : Takeover) (htk' : some { tk with stage := stage } = some tk') :
      ∀ a ∈ acks, a.mTerm < tk'.curTerm := by
    cases htk'
    exact h.takeover tk htk hne
  cases ht with
  | raft a r hr => exact h.raftStep (a := a) hr
  | dequeue e rest hqueue hidle =>
    have hlast := Pipeline.lastSent_dequeue e rest hidle
    exact
      { h with
        pipeline := hpipeline
        queued := by rw [RaftEventStore.waiting_dequeue hqueue hidle, hlast]; exact h.queued
        index_le := by rw [hlast]; exact h.index_le }
  | send e hpopped => exact h.send hpopped
  | compareExchange previousLogIndex hprevious => exact h.compareExchange hprevious
  | takeOver i th curTerm hth hgate hfree hne hidle =>
    refine { h with pipeline := hpipeline, takeover := fun tk htk hw => ?_ }
    cases htk
    exact absurd rfl hw
  | ready callback tk v htk hw hterm hready hversion =>
    refine { h with pipeline := hpipeline, takeover := fun tk' htk' _ a ha => ?_ }
    cases htk'
    have hlt := (h.pipeline.terms.takeover tk htk).compares
    rw [hw] at hlt
    exact (h.term_le a ha).trans_lt (lt_of_le_of_ne (hterm ▸ h.pipeline.terms.curTerm_le) hlt)
  | recover callback tk l v htk hw | recovered callback tk l v htk hw | clear callback tk l htk hw =>
    exact
      { h with
        pipeline := hpipeline
        takeover := fun tk' htk' _ => hstage htk (by rw [hw]; exact nofun) tk' htk' }
  | setTerm callback tk l htk hw => exact h.setTerm callback htk hw
  | lead callback tk l htk hw => exact h.lead callback htk hw
  | stepDown callback tk htk hw hterm => exact { h with pipeline := hpipeline, takeover := nofun }
  | callbackFails callback tk l v htk hw => exact { h with pipeline := hpipeline, takeover := nofun }
  | call i c o next hc hstage => cases o <;> exact { h with pipeline := hpipeline }
  | dispatchRead => exact h.dispatchRead rfl hpipeline
  | dispatchWrite =>
    refine { h with pipeline := hpipeline, queued := RaftEventStore.forall_waiting_append h.queued (.inl ?_) }
    intro a ha hterm
    rcases mem_append.mp ha with ha | ha
    · exact h.index_le a ha hterm
    · exact h.pipeline.taskIndex_le a ha hterm
  | reply i task committed htask hcommitted => exact absurd rfl (hne i)
  | _ => exact { h with pipeline := hpipeline }

theorem step (h : Acks s acks) {a : Act} (ht : Steps s a t) : Acks t (acks ++ acknowledged s a) := by
  by_cases hreply : ∃ i, a = .replyTask i
  · obtain ⟨i, rfl⟩ := hreply
    have hpipeline := h.pipeline.step ht
    cases ht with
    | reply _ task committed htask hcommitted =>
      simp only [acknowledged, htask]
      by_cases hack : task.mIndex ≠ 0 ∧ s.isCommitted task = some true
      · rw [if_pos hack]
        exact h.acknowledge htask hack.1 hack.2 hpipeline
      · rw [if_neg hack, append_nil]
        exact h.erase hpipeline
  · have hne (i : ℕ) : a ≠ .replyTask i := fun ha => hreply ⟨i, ha⟩
    have hnil : acknowledged s a = [] := by
      unfold acknowledged
      split
      · exact absurd rfl (hne _)
      · rfl
    rw [hnil, append_nil]
    exact h.step_of_ne ht hne

end Acks

/-- The entry at the index of a write that was answered with success is committed and is the bundle of
that very write, and no two writes were answered for one entry. -/
theorem acknowledged_durable {raft : Raft} {db : RocksDBKVStore} (hrec : Recoverable raft db) (now : ℕ)
    {acts : List Act} {t : Node} {acks : List Task}
    (ht : exec (traced step acknowledged) (recoverSelf raft db now, []) acts = some (t, acks)) :
    (∀ task ∈ acks, task.mIndex ≤ t.raft.committed ∧
        entryAt t.raft.log task.mIndex = some ⟨task.mTerm, some task.events⟩) ∧
      acks.Pairwise (fun a b => a.mIndex ≠ b.mIndex) := by
  have hinit : Acks (recoverSelf raft db now) [] :=
    { pipeline := hrec.pipeline now
      durable := fun _ ha => nomatch ha
      distinct := .nil
      apart := .nil
      queued := fun _ he => nomatch he
      index_le := fun _ ha => nomatch ha
      term_le := fun _ ha => nomatch ha
      takeover := nofun }
  have hinv : Acks t acks :=
    exec_traced_invariant (fun s a u os hs _ hu => hs.step (steps_of_step hu)) hinit (meets_true _ _) ht
  exact ⟨hinv.durable, hinv.distinct⟩

/-- A new node is elected, and a client puts a key. -/
def firstPut : List Act :=
  [.raft (.elect 1), .raft (.commit 1), .loadBundles 1, .refreshRoleAndTerm,
    .submit (.put { key := "k", value := "v" }), .advance 0, .advance 0, .advance 0,
    .becomeLeader .ok, .becomeLeader .ok, .becomeLeader .ok, .becomeLeader .ok, .becomeLeader .ok,
    .becomeLeader .ok, .start 0 .ok, .call 0, .call 0, .dispatch 0, .finish 0]

def persistPut : List Act :=
  [.dequeue, .send, .compareExchange, .sendBatch, .raft .accept, .raft (.commit 2), .replyTask 0]

/-- The put is acknowledged, and is the second entry of the log. -/
theorem firstPut_durable : ∃ t task,
    exec (traced step acknowledged) (recoverSelf {} {} 0, []) (firstPut ++ persistPut) =
      some (t, [task]) ∧ task.mIndex = 2 ∧ task.mTerm = 1 ∧ task.events ≠ [] ∧
    entryAt t.raft.log task.mIndex = some ⟨task.mTerm, some task.events⟩ := by
  obtain ⟨t, task, ht, hindex, hterm, hevents⟩ : ∃ t task,
      exec (traced step acknowledged) (recoverSelf {} {} 0, []) (firstPut ++ persistPut) =
        some (t, [task]) ∧ task.mIndex = 2 ∧ task.mTerm = 1 ∧ task.events ≠ [] :=
    ⟨_, _, rfl, rfl, rfl, nofun⟩
  exact ⟨t, task, ht, hindex, hterm, hevents,
    ((acknowledged_durable recoverable_empty 0 ht).1 task (mem_singleton_self _)).2⟩

end Goblin.Engine
