import Goblin.Lib.Consensus.Steps
import Goblin.Engine.Pipeline

/-! A cluster: every node runs its engine over a server of the Raft protocol, and each step of the
protocol is, for the engine of the node that takes it, a sequence of the steps that it expects of Raft. -/
namespace Goblin.Engine

open Lib Function

abbrev Protocol (N : Type*) := Consensus.State N LogEntry

structure Cluster (N : Type*) where
  protocol : Protocol N := {}
  node : N → Node := fun _ => {}

/-- What the engine sees of its server. -/
def Raft.view (r : Raft) (server : Consensus.Server LogEntry) : Raft :=
  { r with
    currentTerm := server.term
    role := if server.role = .leader then .Leader else .Follower
    log := server.log
    commitIndex := server.commitIndex
    committed := server.known
    led := if server.role = .leader then update r.led server.term (some server.log) else r.led }

/-- What is left on disk when a process ends. -/
def Node.restart (s : Node) (server : Consensus.Server LogEntry) : Node :=
  recoverSelf { currentTerm := server.term, log := server.log, committed := server.known }
    { s.stores.db with mWriteBatch := [] } s.stores.now

/-- `engine` is a step of a node other than those of Raft, `win` counts the votes and appends the noop
of the new leader, `accept` handles the oldest client request of a node. -/
inductive ClusterAct (N : Type*)
  | engine (n : N) (a : Act)
  | campaign (n : N)
  | vote (voter candidate : N) (term : ℕ)
  | win (n : N) (voters : List N)
  | accept (n : N)
  | replicate (n : N) (term prev count leaderCommit : ℕ)
  | commit (n : N) (index : ℕ) (voters : List N)
  | follow (n : N) (term : ℕ)
  | restart (n : N)

def Act.isRaft : Act → Bool
  | .raft _ => true
  | _ => false

namespace Cluster

variable {N : Type*} [DecidableEq N] (members : List N)

def setNode (s : Cluster N) (n : N) (t : Node) : Cluster N :=
  { s with node := update s.node n t }

/-- The protocol moves on, and node `n` with it. -/
def sync (s : Cluster N) (n : N) (r : Raft) (p : Protocol N) : Cluster N :=
  { s.setNode n { s.node n with raft := r.view (p.server n) } with protocol := p }

/-- A step of the protocol that node `n` takes. -/
def protocolStep (s : Cluster N) (n : N) (r : Raft) (a : Consensus.Act N LogEntry) :
    Option (Cluster N) :=
  (Consensus.step LogEntry.term members s.protocol a).map (s.sync n r)

/-- A request is taken only in the term and at the index that it asks for. -/
def accept (s : Cluster N) (n : N) : Option (Cluster N) :=
  match (s.node n).raft.requests with
  | [] => none
  | req :: rest =>
    let r := { (s.node n).raft with requests := rest }
    if r.role = .Leader ∧ req.entry.term = r.currentTerm ∧ req.index = r.log.length + 1 then
      s.protocolStep members n r (.append n req.entry)
    else some (s.setNode n { s.node n with raft := r })

def win (s : Cluster N) (n : N) (voters : List N) : Option (Cluster N) :=
  (Consensus.step LogEntry.term members s.protocol (.win n voters)).bind fun p =>
    (Consensus.step LogEntry.term members p (.append n ⟨(p.server n).term, none⟩)).map
      (s.sync n (s.node n).raft)

def step (s : Cluster N) : ClusterAct N → Option (Cluster N)
  | .engine n a => if a.isRaft then none else (Engine.step (s.node n) a).map (s.setNode n)
  | .campaign n => s.protocolStep members n (s.node n).raft (.campaign n)
  | .vote v c term => s.protocolStep members v (s.node v).raft (.vote v c term)
  | .win n voters => s.win members n voters
  | .accept n => s.accept members n
  | .replicate n term prev count leaderCommit =>
    s.protocolStep members n (s.node n).raft (.replicate n term prev count leaderCommit)
  | .commit n index voters => s.protocolStep members n (s.node n).raft (.commit n index voters)
  | .follow n term => s.protocolStep members n (s.node n).raft (.follow n term)
  | .restart n =>
    (Consensus.step LogEntry.term members s.protocol (.restart n)).map fun p =>
      { s.setNode n ((s.node n).restart (p.server n)) with protocol := p }

section Projections

variable (s : Cluster N) (n : N)

@[simp] theorem setNode_self (t : Node) : (s.setNode n t).node n = t := update_self ..

theorem setNode_of_ne {n' : N} (t : Node) (h : n' ≠ n) : (s.setNode n t).node n' = s.node n' :=
  update_of_ne h ..

@[simp] theorem sync_self (r : Raft) (p : Protocol N) :
    (s.sync n r p).node n = { s.node n with raft := r.view (p.server n) } := update_self ..

theorem sync_of_ne {n' : N} (r : Raft) (p : Protocol N) (h : n' ≠ n) :
    (s.sync n r p).node n' = s.node n' := update_of_ne h ..

end Projections

end Cluster

/-- The engine is up to date with its server, and its history is a part of that of the protocol. -/
structure Raft.Reflects {N : Type*} (r : Raft) (p : Protocol N) (n : N) : Prop where
  view : r.view (p.server n) = r
  led : ∀ term own, r.led term = some own → ∃ l, p.led term = some l ∧ l.node = n ∧ l.log = own

namespace Raft

@[simp] theorem view_view (r : Raft) (server : Consensus.Server LogEntry) :
    (r.view server).view server = r.view server := by
  unfold view
  split_ifs <;> simp

/-- A step after which the log of a follower has the property. -/
def StepsOn (P : List LogEntry → Prop) (r t : Raft) : Prop := r.Steps t ∧ (t.role = .Follower → P t.log)

theorem Steps.on_view {r r' : Raft} {server : Consensus.Server LogEntry} (h : r.Steps (r'.view server))
    {P : List LogEntry → Prop} (hP : server.role ≠ .leader → P server.log) :
    Relation.ReflTransGen (StepsOn P) r (r'.view server) := by
  refine .single ⟨h, fun hrole => hP fun hleader => ?_⟩
  rw [view, if_pos hleader] at hrole
  cases hrole

theorem led_view (r : Raft) (server : Consensus.Server LogEntry) {term : ℕ} {own : List LogEntry}
    (h : (r.view server).led term = some own) :
    server.role = .leader ∧ term = server.term ∧ own = server.log ∨
      r.led term = some own ∧ (server.role = .leader → term ≠ server.term) := by
  unfold view at h
  split_ifs at h with hrole
  · by_cases hterm : term = server.term
    · subst hterm
      simp only [update_self] at h
      exact .inl ⟨hrole, rfl, (Option.some.inj h).symm⟩
    · simp only [update_of_ne hterm] at h
      exact .inr ⟨h, fun _ => hterm⟩
  · exact .inr ⟨h, fun hcon => absurd hcon hrole⟩

namespace Reflects

variable {N : Type*} {r : Raft} {p : Protocol N} {n : N}

theorem currentTerm_eq (h : r.Reflects p n) : (p.server n).term = r.currentTerm :=
  congrArg Raft.currentTerm h.view

theorem role_eq (h : r.Reflects p n) :
    r.role = if (p.server n).role = .leader then .Leader else .Follower :=
  (congrArg Raft.role h.view).symm

theorem log_eq (h : r.Reflects p n) : (p.server n).log = r.log := congrArg Raft.log h.view

theorem commitIndex_eq (h : r.Reflects p n) : (p.server n).commitIndex = r.commitIndex :=
  congrArg Raft.commitIndex h.view

theorem committed_eq (h : r.Reflects p n) : (p.server n).known = r.committed :=
  congrArg Raft.committed h.view

theorem role_leader (h : r.Reflects p n) (hrole : r.role = .Leader) : (p.server n).role = .leader := by
  rw [h.role_eq] at hrole
  split_ifs at hrole with hleader
  exact hleader

theorem role_follower (h : r.Reflects p n) (hrole : (p.server n).role ≠ .leader) : r.role = .Follower := by
  rw [h.role_eq, if_neg hrole]

section Steps

theorem view_follow (h : r.Reflects p n) {term : ℕ} {role : Consensus.Role} (hrole : role ≠ .leader) :
    r.view { p.server n with term := term, role := role } =
      { r with currentTerm := term, role := .Follower } := by
  simp only [Raft.view, if_neg hrole, h.log_eq, h.commitIndex_eq, h.committed_eq]

theorem view_leader (h : r.Reflects p n) (hr : r.Inv) (hrole : (p.server n).role = .leader)
    (commitIndex known : ℕ) :
    r.view { p.server n with commitIndex := commitIndex, known := known } =
      { r with commitIndex := commitIndex, committed := known } := by
  have hleader : r.role = .Leader := by rw [h.role_eq, if_pos hrole]
  have hled : update r.led r.currentTerm (some r.log) = r.led := by
    rw [update_eq_self_iff, hr.led_current, if_pos hleader]
  simp only [Raft.view, if_pos hrole, h.log_eq, h.currentTerm_eq, hled]
  rw [← hleader]

theorem view_append (h : r.Reflects p n) (entry : LogEntry) (hterm : entry.term = r.currentTerm)
    (requests : List ClientRequest) :
    Raft.view { r with requests := requests }
        { p.server n with role := .leader, log := (p.server n).log ++ [entry] } =
      append { r with role := .Leader, requests := requests } entry := by
  simp only [Raft.view, append, h.log_eq, h.commitIndex_eq, h.committed_eq, h.currentTerm_eq, hterm, if_true]

theorem steps_follow (h : r.Reflects p n) {term : ℕ} (hlt : (p.server n).term < term)
    {role : Consensus.Role} (hrole : role ≠ .leader) :
    r.Steps (r.view { p.server n with term := term, role := role }) := by
  rw [h.view_follow hrole]
  exact .follow term (h.currentTerm_eq ▸ hlt)

theorem steps_accept (h : r.Reflects p n) {req : ClientRequest} {rest : List ClientRequest}
    (hreq : r.requests = req :: rest) (hrole : r.role = .Leader) (hterm : req.entry.term = r.currentTerm)
    (hindex : req.index = r.log.length + 1) :
    r.Steps (Raft.view { r with requests := rest }
      { p.server n with log := (p.server n).log ++ [req.entry] }) := by
  have hview := h.view_append req.entry hterm rest
  rw [← h.role_leader hrole, ← hrole] at hview
  rw [hview]
  exact .accept req rest hreq hrole hterm hindex

theorem steps_commit (h : r.Reflects p n) (hr : r.Inv) (hrole : (p.server n).role = .leader) {index : ℕ}
    (hlt : (p.server n).commitIndex < index) (hle : index ≤ (p.server n).log.length) :
    r.Steps (r.view { p.server n with commitIndex := index, known := max (p.server n).known index }) := by
  rw [h.view_leader hr hrole, h.committed_eq]
  exact .commit index (h.commitIndex_eq ▸ hlt) (h.log_eq ▸ hle)

theorem matches_log (h : r.Reflects p n) {log : List LogEntry} (hlog : Consensus.Good LogEntry.term p log) :
    r.Matches log := by
  intro i hi entry he own hown
  obtain ⟨l, hl, htake⟩ := hlog.origin i entry he
  obtain ⟨l', hl', -, rfl⟩ := h.led entry.term own hown
  cases hl.symm.trans hl'
  exact htake

variable [DecidableEq N] {members : List N}

theorem steps_win (h : r.Reflects p n) (hp : Consensus.Inv LogEntry.term members p)
    (hrole : (p.server n).role = .candidate) :
    r.Steps (r.view { p.server n with
      role := .leader, log := (p.server n).log ++ [⟨(p.server n).term, none⟩] }) := by
  rw [h.view_append ⟨(p.server n).term, none⟩ h.currentTerm_eq r.requests, h.currentTerm_eq]
  refine .elect r.currentTerm (.inr ⟨h.role_follower (by simp [hrole]), rfl, ?_⟩)
  rw [← h.currentTerm_eq]
  exact (hp.campaigns _ n _ ((hp.servers n).asking hrole).1).1

/-- Entries arrive: the server enters the term of the leader, takes over the log and learns what is
committed. -/
theorem steps_replicate {p' : Protocol N} (h : r.Reflects p n) (hp : Consensus.Inv LogEntry.term members p)
    (hp' : Consensus.Inv LogEntry.term members p') (hb : Consensus.By n p p') (hled : p'.led = p.led)
    (hleader : (p'.server n).term = (p.server n).term → (p.server n).role ≠ .leader)
    (hrole : (p'.server n).role = .follower)
    (hcommit : (p.server n).commitIndex ≤ (p'.server n).commitIndex)
    (hknown : (p'.server n).known = max (p.server n).known (p'.server n).commitIndex)
    {P : List LogEntry → Prop} (hlog : P r.log) (hlog' : P (p'.server n).log) :
    Relation.ReflTransGen (Raft.StepsOn P) r (r.view (p'.server n)) := by
  have hlen := hp'.known_le n
  obtain ⟨hle, htake⟩ := hp.known_stable hb hp' n
  -- the term
  have hfollow : Relation.ReflTransGen (Raft.StepsOn P) r
      { r with currentTerm := (p'.server n).term, role := .Follower } := by
    rcases hb.term_le.lt_or_eq with hlt | heq
    · exact .single ⟨.follow _ (h.currentTerm_eq ▸ hlt), fun _ => hlog⟩
    · rw [← heq, h.currentTerm_eq, ← h.role_follower (hleader heq.symm)]
  -- the log
  have hreceive : Raft.Steps { r with currentTerm := (p'.server n).term, role := .Follower }
      { r with currentTerm := (p'.server n).term, role := .Follower, log := (p'.server n).log } := by
    refine .receive _ rfl ⟨?_, ?_, (hp'.servers n).term_le, (hp'.servers n).good.sorted, ?_⟩
    · exact (h.committed_eq ▸ hle).trans hlen
    · rw [h.committed_eq, h.log_eq] at htake
      exact htake
    · refine h.matches_log ?_
      obtain ⟨horigin, hsorted⟩ := (hp'.servers n).good
      exact ⟨hled ▸ horigin, hsorted⟩
  refine (hfollow.tail ⟨hreceive, fun _ => hlog'⟩).trans ?_
  have hview : r.view (p'.server n) =
      { r with
        currentTerm := (p'.server n).term, role := .Follower, log := (p'.server n).log
        commitIndex := (p'.server n).commitIndex
        committed := max r.committed (p'.server n).commitIndex } := by
    simp only [Raft.view, hrole, hknown, h.committed_eq, reduceCtorEq, if_false]
  rw [hview]
  -- the commit index
  rcases hcommit.lt_or_eq with hlt | heq
  · exact .single ⟨.commit _ (h.commitIndex_eq ▸ hlt) ((hp'.servers n).commit_le.trans hlen), fun _ => hlog'⟩
  · rw [← heq, h.commitIndex_eq, max_eq_left]
    rw [← h.commitIndex_eq, ← h.committed_eq]
    exact (hp.servers n).commit_le

end Steps

end Reflects

end Raft

end Goblin.Engine
