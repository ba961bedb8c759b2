import Goblin.Engine.Cluster

/-! The invariants of a cluster: every node is up to date with its server, and what its steps keep holds for it and
for the logs of all leaders. -/
namespace Goblin.Engine

open Model Lib Execution List Option

/-- All events of a bundle carry its version. -/
def UniformBundle (bundle : List Event) : Prop :=
  bundle ≠ [] ∧ ∀ e ∈ bundle, e.version = getVersionFromBundle bundle

def LogEntry.Uniform (entry : LogEntry) : Prop := ∀ bundle ∈ entry.bundle, UniformBundle bundle

def UniformLog (log : List LogEntry) : Prop := ∀ entry ∈ log, entry.Uniform

/-- What a node keeps besides its queues in order: the milestone on disk, and uniform bundles. -/
structure Node.Sound (s : Node) : Prop where
  pipeline : Pipeline s
  milestone : s.stores.db.mMilestone = s.loop.mLastMilestone
  log : UniformLog s.raft.log
  sent : ∀ req ∈ s.sent, req.entry.Uniform
  queued : ∀ e ∈ s.store.waiting, UniformBundle e.events

/-- What holds of a node and its log is kept by the steps that meet `G`, if followers only receive such logs. -/
structure Kept (Q : Node → Prop) (P : List LogEntry → Prop) (G : Node → Act → Prop) : Prop where
  pipeline : ∀ s, Q s → Pipeline s
  log : ∀ s, Q s → P s.raft.log
  take : ∀ log k, P log → P (log.take k)
  raft : ∀ s r, Q s → s.raft.StepsOn P r → Q { s with raft := r }
  engine : ∀ s a t, Q s → G s a → Steps s a t → a.isRaft = false → Q t
  restart : ∀ s server, Q s → s.raft.currentTerm = server.term → s.raft.log = server.log →
    s.raft.committed = server.known → Q (s.restart server)
  initial : Q (recoverSelf {} {} 0)

theorem Kept.raftSteps {Q : Node → Prop} {P : List LogEntry → Prop} {G : Node → Act → Prop} (hkept : Kept Q P G)
    {s : Node} (h : Q s) {r : Raft} (hr : Relation.ReflTransGen (Raft.StepsOn P) s.raft r) :
    Q { s with raft := r } := by
  induction hr with
  | refl => exact h
  | @tail r' t _ hstep ih => exact hkept.raft { s with raft := r' } t ih hstep

theorem StorageStep.milestone {s t : Storage} (h : StorageStep s t)
    (hs : s.db.mMilestone = s.loop.mLastMilestone) : t.db.mMilestone = t.loop.mLastMilestone := by
  cases h with
  | apply b happlying =>
    rw [Event.applyAll_rocksDB]
    exact hs
  | flush hidle => rfl
  | _ => exact hs

namespace Node.Sound

variable {s t : Node}

theorem raftStep (h : s.Sound) {r : Raft} (hr : s.raft.StepsOn UniformLog r) : Node.Sound { s with raft := r } := by
  obtain ⟨hr, hlog⟩ := hr
  refine ⟨h.pipeline.raftStep hr, h.milestone, ?_, fun req hreq => h.sent req ?_, h.queued⟩
  · cases hr with
    | elect term helect =>
      exact forall_mem_append.mpr ⟨h.log, forall_mem_singleton.mpr nofun⟩
    | receive log hrole hlog' => exact hlog hrole
    | accept req rest hreq hrole hterm hindex =>
      refine forall_mem_append.mpr ⟨h.log, forall_mem_singleton.mpr (h.sent req ?_)⟩
      exact mem_append_left _ (hreq ▸ mem_cons_self)
    | _ => exact h.log
  · exact (mem_append.mp hreq).elim (fun hreq => mem_append_left _ (hr.requests_subset hreq))
      (mem_append_right _)

theorem step (h : s.Sound) {a : Act} (ht : Steps s a t) (ha : a.isRaft = false) : t.Sound := by
  have hpipeline := h.pipeline.step ht
  have hmilestone := ht.storage.milestone h.milestone
  cases ht with
  | raft a r hr => cases ha
  | dequeue e rest hqueue hidle =>
    exact { h with
      pipeline := hpipeline
      queued := by rw [RaftEventStore.waiting_dequeue hqueue hidle]; exact h.queued }
  | compareExchange previousLogIndex hprevious =>
    have hqueued := h.queued
    rw [RaftEventStore.waiting_of_sent hprevious] at hqueued
    exact { h with pipeline := hpipeline, queued := hqueued }
  | send e hpopped =>
    have hwaiting := RaftEventStore.waiting_of_popped hpopped
    refine { h with pipeline := hpipeline, sent := fun req hreq => ?_, queued := fun e' he' => ?_ }
    · rcases Pipeline.mem_sent_sendNext hreq with hreq | rfl
      · exact h.sent req hreq
      · intro bundle hb
        cases hb
        exact h.queued e (hwaiting ▸ mem_cons_self)
    · exact h.queued e' (hwaiting ▸ mem_cons_of_mem _ he')
  | sendBatch =>
    have hsent : s.sendBatch.sent = s.sent := by
      simp [Node.sent, Node.sendBatch, Raft.enqueueClientRequests]
    exact { h with pipeline := hpipeline, sent := hsent ▸ h.sent }
  | dispatchWrite i c r d response bundle hc hstage hd hout hv hcmd hne hall =>
    have hversion := Pipeline.getVersionFromBundle_eq hne hall
    exact { h with
      pipeline := hpipeline
      queued := RaftEventStore.forall_waiting_append h.queued
        ⟨hne, fun e he => (hall e he).trans hversion.symm⟩ }
  | call i c o next hc hstage =>
    cases o <;> exact { h with pipeline := hpipeline, milestone := hmilestone }
  | _ => exact { h with pipeline := hpipeline, milestone := hmilestone }

/-- What is left of the node on disk is what a start expects. -/
theorem recoverable (h : s.Sound) {server : Consensus.Server LogEntry} (hterm : s.raft.currentTerm = server.term)
    (hlog : s.raft.log = server.log) (hcommitted : s.raft.committed = server.known) :
    Recoverable { currentTerm := server.term, log := server.log, committed := server.known }
      { s.stores.db with mWriteBatch := [] } := by
  have hstorage := h.pipeline.terms.storage
  have hmilestone : s.stores.db.mMilestone ≤ s.raft.committed := by
    rw [h.milestone]
    exact hstorage.milestone_le.trans (hstorage.applied_le.trans hstorage.loaded_le)
  exact
    { role := rfl
      led := fun _ => rfl
      requests := rfl
      commitIndex_le := Nat.zero_le _
      committed_le := hcommitted ▸ hlog ▸ hstorage.committed_le
      term_le := hlog ▸ hterm ▸ h.pipeline.terms.raft.term_le
      sorted := hlog ▸ h.pipeline.terms.raft.sorted
      noError := hstorage.noError
      clear := rfl
      milestone_le := hcommitted ▸ hmilestone
      records := by
        rw [← hlog, h.milestone]
        exact hstorage.flushed }

theorem kept : Kept Node.Sound UniformLog fun _ _ => True where
  pipeline _ h := h.pipeline
  log _ h := h.log
  take _ _ h := fun entry he => h entry (mem_of_mem_take he)
  raft _ _ h hr := h.raftStep hr
  engine _ _ _ h _ ht ha := h.step ht ha
  restart _ server h hterm hlog hcommitted :=
    { pipeline := (h.recoverable hterm hlog hcommitted).pipeline _
      milestone := rfl
      log := (hlog ▸ h.log : UniformLog server.log)
      sent := fun _ hreq => nomatch hreq
      queued := fun _ he => nomatch he }
  initial :=
    { pipeline := recoverable_empty.pipeline 0
      milestone := rfl
      log := fun _ he => nomatch he
      sent := fun _ hreq => nomatch hreq
      queued := fun _ he => nomatch he }

end Node.Sound

namespace Cluster

variable {N : Type*} [DecidableEq N] {members : List N} {s t : Cluster N}

variable {n : N} {p : Protocol N}

variable {Q : Node → Prop} {P : List LogEntry → Prop} {G : Node → Act → Prop}

structure Inv (Q : Node → Prop) (P : List LogEntry → Prop) (members : List N) (s : Cluster N) : Prop where
  protocol : Consensus.Inv LogEntry.term members s.protocol
  reflects : ∀ n, (s.node n).raft.Reflects s.protocol n
  nodes : ∀ n, Q (s.node n)
  leaders : ∀ term l, s.protocol.led term = some l → P l.log

/-- The steps of the engines meet `G`. -/
def Guarded (G : Node → Act → Prop) (s : Cluster N) : ClusterAct N → Prop
  | .engine n a => G (s.node n) a
  | _ => True

instance (s : Cluster N) (a : ClusterAct N) [∀ s a, Decidable (G s a)] : Decidable (Guarded G s a) := by
  unfold Guarded
  split <;> infer_instance

omit [DecidableEq N] in
theorem Inv.led_eq (hb : Consensus.By n s.protocol p) (hled : p.led = s.protocol.led ∨
      (p.server n).role = .leader ∧ (p.server n).term = (s.protocol.server n).term) {term : ℕ}
    (hterm : (p.server n).role = .leader → term ≠ (p.server n).term) {l : Consensus.Leadership N LogEntry}
    (hl : p.led term = some l) : s.protocol.led term = some l := by
  rcases hled with hled | ⟨hrole, heq⟩
  · rwa [← hled]
  · rcases hb.led_new term l hl with hold | ⟨hcur, -⟩
    · exact hold
    · exact absurd (hcur.trans heq.symm) (hterm hrole)

theorem Inv.sync (hkept : Kept Q P G) (h : Inv Q P members s) {r : Raft} (hp : Consensus.Inv LogEntry.term members p)
    (hb : Consensus.By n s.protocol p) (hr : r.led = (s.node n).raft.led) (hled : p.led = s.protocol.led ∨
      (p.server n).role = .leader ∧ (p.server n).term = (s.protocol.server n).term)
    (hsteps : Relation.ReflTransGen (Raft.StepsOn P) (s.node n).raft (r.view (p.server n))) :
    Inv Q P members (s.sync n r p) := by
  have hnode := hkept.raftSteps (h.nodes n) hsteps
  refine ⟨hp, fun m => ?_, fun m => ?_, fun term l hl => ?_⟩
  · by_cases hm : m = n
    · subst hm
      rw [sync_self]
      refine ⟨r.view_view _, fun term own hown => ?_⟩
      rcases r.led_view _ hown with ⟨hrole, rfl, rfl⟩ | ⟨hown, hterm⟩
      · exact (hp.servers m).leading hrole
      · obtain ⟨l, hl, hnode, hlog⟩ := (h.reflects m).led term own (hr ▸ hown)
        obtain ⟨l', hl', -⟩ := hb.led term l hl
        cases hl.symm.trans (Inv.led_eq hb hled hterm hl')
        exact ⟨l, hl', hnode, hlog⟩
    · rw [sync_of_ne _ _ _ _ hm]
      refine ⟨?_, fun term own hown => ?_⟩
      · change Raft.view _ (p.server m) = _
        rw [hb.server m hm]
        exact (h.reflects m).view
      · obtain ⟨l, hl, hnode, hlog⟩ := (h.reflects m).led term own hown
        obtain ⟨l', hl', hle⟩ := hb.led term l hl
        rcases hb.led_new term l' hl' with hold | ⟨-, hnode'⟩
        · cases hl.symm.trans hold
          exact ⟨l, hl', hnode, hlog⟩
        · exact absurd ((hle.node.trans hnode).symm.trans hnode') hm
  · by_cases hm : m = n
    · subst hm
      rw [sync_self]
      exact hnode
    · rw [sync_of_ne _ _ _ _ hm]
      exact h.nodes m
  · by_cases hcur : (p.server n).role = .leader ∧ term = (p.server n).term
    · obtain ⟨hrole, rfl⟩ := hcur
      obtain ⟨l', hl', -, hlog'⟩ := (hp.servers n).leading hrole
      cases hl'.symm.trans hl
      rw [hlog']
      exact hkept.log _ hnode
    · exact h.leaders term l (Inv.led_eq hb hled (fun hrole hterm => hcur ⟨hrole, hterm⟩) hl)

theorem Inv.setNode (h : Inv Q P members s) {t : Node} (ht : Q t) (hreflects : t.raft.Reflects s.protocol n) :
      Inv Q P members (s.setNode n t) :=
  { h with
    reflects m := by
      by_cases hm : m = n
      · subst hm
        rw [setNode_self]
        exact hreflects
      · rw [setNode_of_ne _ _ _ hm]
        exact h.reflects m
    nodes m := by
      by_cases hm : m = n
      · subst hm
        rw [setNode_self]
        exact ht
      · rw [setNode_of_ne _ _ _ hm]
        exact h.nodes m }

theorem Inv.log (hkept : Kept Q P G) (h : Inv Q P members s) (n : N) : P (s.protocol.server n).log := by
  rw [(h.reflects n).log_eq]
  exact hkept.log _ (h.nodes n)

theorem Inv.appendEntries (hkept : Kept Q P G) (h : Inv Q P members s) {term prev : ℕ} (count : ℕ)
    {l : Consensus.Leadership N LogEntry} (hl : s.protocol.led term = some l)
    (hprev : Consensus.PrevMatches LogEntry.term (s.protocol.server n).log l.log prev) :
    P (Consensus.appendEntries LogEntry.term (s.protocol.server n).log prev
      ((l.log.drop prev).take count)) := by
  have hagree := (h.protocol.servers n).good.agree ((h.protocol.leaders term l hl).good hl)
  rcases Consensus.appendEntries_cases count hagree hprev with ⟨-, heq⟩ | ⟨-, heq⟩
  · rw [heq]
    exact h.log hkept n
  · rw [heq]
    exact hkept.take _ _ (h.leaders term l hl)

theorem Inv.replicate (hkept : Kept Q P G) (h : Inv Q P members s) {term prev count leaderCommit : ℕ}
    (hp : Consensus.step LogEntry.term members s.protocol (.replicate n term prev count leaderCommit) =
      some p) : Inv Q P members (s.sync n (s.node n).raft p) := by
  obtain ⟨hinv, hb⟩ := h.protocol.step hp
  obtain ⟨l, hl, hstep⟩ := bind_eq_some_iff.mp hp
  split_ifs at hstep with hg
  cases hstep
  obtain ⟨hnode, -, -, -, hprev⟩ := hg
  have hentries := h.appendEntries hkept count hl hprev
  have hserver := s.protocol.acceptEntries_server LogEntry.term n term prev count leaderCommit l
  have hlog := congrArg Consensus.Server.log hserver
  refine h.sync hkept hinv hb rfl (.inl rfl) ((h.reflects n).steps_replicate h.protocol hinv hb rfl ?_ ?_ ?_ ?_
    (hkept.log _ (h.nodes n)) ?_)
  · -- a leader does not hear from another one in its term
    intro hterm hrole
    rw [hserver] at hterm
    obtain ⟨l', hl', hnode', -⟩ := (h.protocol.servers n).leading hrole
    rw [← hterm] at hl'
    cases hl.symm.trans hl'
    exact hnode hnode'
  · rw [hserver]
  · rw [hserver]
    exact le_max_left _ _
  · rw [hserver]
  · rw [hlog]
    exact hentries

theorem Inv.vote (hkept : Kept Q P G) (h : Inv Q P members s) {v c : N} {term : ℕ}
    (hp : Consensus.step LogEntry.term members s.protocol (.vote v c term) = some p) :
    Inv Q P members (s.sync v (s.node v).raft p) := by
  obtain ⟨hinv, hb⟩ := h.protocol.step hp
  simp only [Consensus.step] at hp
  split_ifs at hp with hg
  cases hp
  have hserver := s.protocol.grantVote_server v c term
  refine h.sync hkept hinv hb rfl (.inl rfl) ?_
  rw [hserver]
  split_ifs with hlt
  · exact ((h.reflects v).steps_follow hlt (by simp)).on_view fun _ => h.log hkept v
  · obtain rfl : term = (s.protocol.server v).term := le_antisymm (Nat.le_of_not_lt hlt) hg.1
    change Relation.ReflTransGen _ _ ((s.node v).raft.view (s.protocol.server v))
    rw [(h.reflects v).view]

theorem Inv.win (hkept : Kept Q P G) (h : Inv Q P members s) {voters : List N} (hs : s.win members n voters = some t) :
    Inv Q P members t ∧ Consensus.By n s.protocol t.protocol := by
  obtain ⟨p, hp, hs⟩ := bind_eq_some_iff.mp hs
  obtain ⟨p', hp', rfl⟩ := map_eq_some_iff.mp hs
  obtain ⟨hinv, hb⟩ := h.protocol.step hp
  obtain ⟨hinv', hb'⟩ := hinv.step hp'
  simp only [Consensus.step] at hp
  split_ifs at hp with hg
  cases hp
  simp only [Consensus.step] at hp'
  split_ifs at hp' with hg'
  obtain ⟨l, -, rfl⟩ := map_eq_some_iff.mp hp'
  have hleader := s.protocol.becomeLeader_server n voters
  have hserver : (Consensus.State.appendEntry (s.protocol.becomeLeader n voters) n
      ⟨((s.protocol.becomeLeader n voters).server n).term, none⟩ l).server n =
      { s.protocol.server n with
        role := .leader, log := (s.protocol.server n).log ++ [⟨(s.protocol.server n).term, none⟩] } := by
    rw [Consensus.State.appendEntry_server, hleader]
  have hby : Consensus.By n s.protocol _ := hb.trans hb' (congrArg Consensus.Server.term hleader :)
  refine ⟨h.sync hkept hinv' hby rfl ?_ ?_, hby⟩
  · exact .inr ⟨by rw [hserver], by rw [hserver]⟩
  · rw [hserver]
    exact ((h.reflects n).steps_win h.protocol hg.1).on_view (absurd rfl)

theorem Inv.accept (hkept : Kept Q P G) (h : Inv Q P members s) (hs : s.accept members n = some t) :
    Inv Q P members t ∧ Consensus.By n s.protocol t.protocol := by
  unfold Cluster.accept at hs
  split at hs
  · cases hs
  rename_i req rest hreq
  dsimp only at hs
  split_ifs at hs with hg
  · obtain ⟨hrole, hterm, hindex⟩ := hg
    obtain ⟨p, hp, rfl⟩ := map_eq_some_iff.mp hs
    obtain ⟨hinv, hb⟩ := h.protocol.step hp
    simp only [Consensus.step] at hp
    split_ifs at hp with hg
    obtain ⟨l, -, rfl⟩ := map_eq_some_iff.mp hp
    have hserver := s.protocol.appendEntry_server n req.entry l
    refine ⟨h.sync hkept hinv hb rfl (.inr ⟨?_, ?_⟩) ?_, hb⟩
    · rw [hserver]
      exact hg.1
    · rw [hserver]
    · rw [hserver]
      exact ((h.reflects n).steps_accept hreq hrole hterm hindex).on_view (absurd hg.1)
  · cases hs
    have hdrop := hkept.raft _ _ (h.nodes n) ⟨.drop req rest hreq, fun _ => hkept.log _ (h.nodes n)⟩
    refine ⟨h.setNode hdrop ?_, .refl n⟩
    obtain ⟨hview, hled⟩ := h.reflects n
    exact ⟨congrArg (fun r : Raft => { r with requests := rest }) hview, hled⟩

theorem Inv.commit (hkept : Kept Q P G) (h : Inv Q P members s) {index : ℕ} {voters : List N}
    (hp : Consensus.step LogEntry.term members s.protocol (.commit n index voters) = some p) :
    Inv Q P members (s.sync n (s.node n).raft p) := by
  obtain ⟨hinv, hb⟩ := h.protocol.step hp
  simp only [Consensus.step] at hp
  split_ifs at hp with hg
  obtain ⟨l, -, rfl⟩ := map_eq_some_iff.mp hp
  obtain ⟨hrole, hlt, -⟩ := hg
  have hserver := s.protocol.commitTo_server n index l
  have hle := hinv.known_le n
  rw [hserver] at hle
  refine h.sync hkept hinv hb rfl (.inr ⟨by rw [hserver]; exact hrole, by rw [hserver]⟩) ?_
  rw [hserver]
  exact ((h.reflects n).steps_commit (hkept.pipeline _ (h.nodes n)).terms.raft hrole hlt
    ((le_max_right _ _).trans hle)).on_view (absurd hrole)

theorem Inv.restart (hkept : Kept Q P G) (h : Inv Q P members s) (n : N)
    (hp : Consensus.step LogEntry.term members s.protocol (.restart n) = some p) :
    Inv Q P members { s.setNode n ((s.node n).restart (p.server n)) with protocol := p } := by
  obtain ⟨hinv, hb⟩ := h.protocol.step hp
  cases hp
  have hr := h.reflects n
  have hserver := s.protocol.setServer_self n
    { s.protocol.server n with role := .follower, commitIndex := 0 }
  have hnode := hkept.restart _ _ (h.nodes n) hr.currentTerm_eq.symm hr.log_eq.symm hr.committed_eq.symm
  rw [hserver]
  refine ⟨hinv, fun m => ?_, fun m => ?_, h.leaders⟩
  · by_cases hm : m = n
    · subst hm
      change Raft.Reflects ((s.setNode m _).node m).raft _ m
      rw [setNode_self]
      exact ⟨by rw [hserver]; rfl, nofun⟩
    · change Raft.Reflects ((s.setNode n _).node m).raft _ m
      rw [setNode_of_ne _ _ _ hm]
      obtain ⟨hview, hled⟩ := h.reflects m
      exact ⟨by rw [hb.server m hm]; exact hview, hled⟩
  · by_cases hm : m = n
    · subst hm
      change Q ((s.setNode m _).node m)
      rw [setNode_self]
      exact hnode
    · change Q ((s.setNode n _).node m)
      rw [setNode_of_ne _ _ _ hm]
      exact h.nodes m

theorem Inv.engine (hkept : Kept Q P G) (h : Inv Q P members s) {a : Act} {t : Node} (hG : G (s.node n) a)
    (ha : a.isRaft = false)
    (ht : Engine.step (s.node n) a = some t) : Inv Q P members (s.setNode n t) := by
  have hsteps := Engine.steps_of_step ht
  refine h.setNode (hkept.engine _ a t (h.nodes n) hG hsteps ha) ?_
  obtain ⟨hview, hled⟩ := h.reflects n
  have hraft : ∃ requests, t.raft = { (s.node n).raft with requests := requests } := by
    cases hsteps with
    | raft a r hr => cases ha
    | sendBatch => exact ⟨_, rfl⟩
    | _ => exact ⟨_, rfl⟩
  obtain ⟨requests, hraft⟩ := hraft
  rw [hraft]
  exact ⟨congrArg (fun r : Raft => { r with requests := requests }) hview, hled⟩

theorem Inv.step (hkept : Kept Q P G) (h : Inv Q P members s) {a : ClusterAct N} (hG : Guarded G s a)
    (hs : s.step members a = some t) :
    Inv Q P members t ∧ ∃ n, Consensus.By n s.protocol t.protocol := by
  cases a with
  | engine n a =>
    simp only [Cluster.step] at hs
    split_ifs at hs with ha
    obtain ⟨t, ht, rfl⟩ := map_eq_some_iff.mp hs
    exact ⟨h.engine hkept hG (by simpa using ha) ht, n, .refl n⟩
  | campaign n =>
    simp only [Cluster.step, protocolStep] at hs
    obtain ⟨p, hp, rfl⟩ := map_eq_some_iff.mp hs
    obtain ⟨hinv, hb⟩ := h.protocol.step hp
    cases hp
    have hserver := s.protocol.startCampaign_server n
    refine ⟨h.sync hkept hinv hb rfl (.inl rfl) ?_, n, hb⟩
    rw [hserver]
    exact ((h.reflects n).steps_follow (Nat.lt_succ_self _) (by simp)).on_view fun _ => h.log hkept n
  | vote v c term =>
    obtain ⟨p, hp, rfl⟩ := map_eq_some_iff.mp hs
    exact ⟨h.vote hkept hp, v, (h.protocol.step hp).2⟩
  | win n voters => exact ⟨(h.win hkept hs).1, n, (h.win hkept hs).2⟩
  | accept n => exact ⟨(h.accept hkept hs).1, n, (h.accept hkept hs).2⟩
  | replicate n term prev count leaderCommit =>
    obtain ⟨p, hp, rfl⟩ := map_eq_some_iff.mp hs
    exact ⟨h.replicate hkept hp, n, (h.protocol.step hp).2⟩
  | commit n index voters =>
    obtain ⟨p, hp, rfl⟩ := map_eq_some_iff.mp hs
    exact ⟨h.commit hkept hp, n, (h.protocol.step hp).2⟩
  | follow n term =>
    obtain ⟨p, hp, rfl⟩ := map_eq_some_iff.mp hs
    obtain ⟨hinv, hb⟩ := h.protocol.step hp
    simp only [Consensus.step] at hp
    split_ifs at hp with hlt
    cases hp
    have hserver := s.protocol.setServer_self n { s.protocol.server n with term := term, role := .follower }
    refine ⟨h.sync hkept hinv hb rfl (.inl rfl) ?_, n, hb⟩
    rw [hserver]
    exact ((h.reflects n).steps_follow hlt (by simp)).on_view fun _ => h.log hkept n
  | restart n =>
    simp only [Cluster.step] at hs
    obtain ⟨p, hp, rfl⟩ := map_eq_some_iff.mp hs
    exact ⟨h.restart hkept n hp, n, (h.protocol.step hp).2⟩

theorem Inv.initial (hkept : Kept Q P G) : Inv Q P members ({} : Cluster N) where
  protocol := .initial
  reflects _ := ⟨rfl, nofun⟩
  nodes _ := hkept.initial
  leaders _ _ hl := nomatch hl

theorem Inv.of_exec (hkept : Kept Q P G) {acts : List (ClusterAct N)} (h : Inv Q P members s)
    (hG : Meets (Cluster.step members) (Guarded G) s acts) (hs : exec (Cluster.step members) s acts = some t) :
    Inv Q P members t :=
  exec_invariant (fun _ _ _ h hg ht => (h.step hkept hg ht).1) h hG hs

/-- What holds without a guard. -/
abbrev SoundInv (members : List N) (s : Cluster N) : Prop := Inv Node.Sound UniformLog members s

theorem SoundInv.step (h : SoundInv members s) {a : ClusterAct N} (hs : s.step members a = some t) :
    SoundInv members t ∧ ∃ n, Consensus.By n s.protocol t.protocol :=
  Inv.step Node.Sound.kept h (by cases a <;> trivial) hs

theorem SoundInv.of_exec {acts : List (ClusterAct N)} (h : SoundInv members s)
    (hs : exec (Cluster.step members) s acts = some t) : SoundInv members t :=
  exec_invariant_of_step (fun _ _ _ h ht => (SoundInv.step h ht).1) h hs

theorem SoundInv.reached {acts : List (ClusterAct N)} (hs : exec (Cluster.step members) {} acts = some s) :
    SoundInv members s := SoundInv.of_exec (Inv.initial Node.Sound.kept) hs

end Cluster

end Goblin.Engine
