import Mathlib

/-! Raft: the rules for votes, for the replication of logs and for commitment. Messages are read off a
history of what has been sent, so that each of them may arrive late, twice or never. -/
namespace Goblin.Lib.Consensus

open Function

inductive Role
  | follower | candidate | leader
  deriving DecidableEq, Repr

/-- `known` is history: the greatest commit index that the server has had, also before a restart. -/
structure Server (E : Type*) where
  term : ℕ := 0
  role : Role := .follower
  log : List E := []
  commitIndex : ℕ := 0
  known : ℕ := 0

/-- What a leader has had in its term: the log it was elected with, the votes for it, its log and the
greatest index it has committed. -/
structure Leadership (N E : Type*) where
  node : N
  start : List E
  voters : List N
  log : List E
  commit : ℕ := 0

/-- `votedFor` holds the votes of each term, `campaign` the logs that candidates have asked for votes
with and `ballot` the logs of the voters at that time, `led` the leaderships, and `acked` how much of
the log of a term's leader a server has confirmed. -/
structure State (N E : Type*) where
  server : N → Server E := fun _ => {}
  votedFor : ℕ → N → Option N := fun _ _ => none
  campaign : ℕ → N → Option (List E) := fun _ _ => none
  ballot : ℕ → N → List E := fun _ _ => []
  led : ℕ → Option (Leadership N E) := fun _ => none
  acked : ℕ → N → ℕ := fun _ _ => 0

variable {N E : Type*} [DecidableEq N] (termOf : E → ℕ)

/-- More than half of the members. -/
def majority (members voters : List N) : Bool :=
  members.length < 2 * members.countP (· ∈ voters)

def lastTerm (log : List E) : ℕ := (log.getLast?.map termOf).getD 0

/-- A log may lead a voter with the log `other`. -/
def UpToDate (log other : List E) : Prop :=
  lastTerm termOf other < lastTerm termOf log ∨
    lastTerm termOf other = lastTerm termOf log ∧ other.length ≤ log.length

instance (log other : List E) : Decidable (UpToDate termOf log other) :=
  inferInstanceAs (Decidable (_ ∨ _ ∧ _))

/-- New entries replace those that conflict with them and all that follow; entries that are there
already stay. -/
def merge : List E → List E → List E
  | own, [] => own
  | [], new => new
  | e :: own, f :: new => if termOf e = termOf f then e :: merge own new else f :: new

/-- The entry before the new ones is there. -/
def PrevMatches (own log : List E) (prev : ℕ) : Prop :=
  prev = 0 ∨ prev ≤ own.length ∧ own[prev - 1]?.map termOf = log[prev - 1]?.map termOf

instance (own log : List E) (prev : ℕ) : Decidable (PrevMatches termOf own log prev) :=
  inferInstanceAs (Decidable (_ ∨ _ ∧ _))

def appendEntries (own : List E) (prev : ℕ) (entries : List E) : List E :=
  own.take prev ++ merge termOf (own.drop prev) entries

/-- `campaign` starts an election, `vote` grants a vote, `win` counts the votes, `append` extends the
leader's log, `replicate` delivers entries `prev + 1` to `prev + count` of a leader with its commit
index, `commit` advances the leader's commit index, `follow` enters a newer term. -/
inductive Act (N E : Type*)
  | campaign (node : N)
  | vote (voter candidate : N) (term : ℕ)
  | win (node : N) (voters : List N)
  | append (node : N) (entry : E)
  | replicate (node : N) (term prev count leaderCommit : ℕ)
  | commit (node : N) (index : ℕ) (voters : List N)
  | follow (node : N) (term : ℕ)
  | restart (node : N)

/-- The server that takes the step. -/
def Act.node : Act N E → N
  | .campaign n | .vote n _ _ | .win n _ | .append n _ | .replicate n _ _ _ _ | .commit n _ _
  | .follow n _ | .restart n => n

/-- Sets a value of a table with two keys. -/
def set₂ {α : Type*} (f : ℕ → N → α) (term : ℕ) (n : N) (a : α) : ℕ → N → α :=
  update f term (update (f term) n a)

theorem set₂_apply {α : Type*} (f : ℕ → N → α) (term : ℕ) (n : N) (a : α) (term' : ℕ) (n' : N) :
    set₂ f term n a term' n' = if term' = term ∧ n' = n then a else f term' n' := by
  unfold set₂
  by_cases ht : term' = term
  · subst ht
    by_cases hn : n' = n <;> simp [hn]
  · simp [ht]

namespace State

def setServer (s : State N E) (n : N) (server : Server E) : State N E :=
  { s with server := update s.server n server }

@[simp] theorem setServer_self (s : State N E) (n : N) (server : Server E) :
    (s.setServer n server).server n = server := update_self ..

theorem setServer_of_ne (s : State N E) {n n' : N} (server : Server E) (h : n' ≠ n) :
    (s.setServer n server).server n' = s.server n' := update_of_ne h ..

def startCampaign (s : State N E) (n : N) : State N E :=
  let server := s.server n
  { s.setServer n { server with term := server.term + 1, role := .candidate } with
    votedFor := set₂ s.votedFor (server.term + 1) n (some n)
    campaign := set₂ s.campaign (server.term + 1) n (some server.log)
    ballot := set₂ s.ballot (server.term + 1) n server.log }

def grantVote (s : State N E) (voter candidate : N) (term : ℕ) : State N E :=
  let server := s.server voter
  { s.setServer voter { server with
      term := term, role := if server.term < term then .follower else server.role } with
    votedFor := set₂ s.votedFor term voter (some candidate)
    ballot := set₂ s.ballot term voter server.log }

def becomeLeader (s : State N E) (n : N) (voters : List N) : State N E :=
  let server := s.server n
  { s.setServer n { server with role := .leader } with
    led := update s.led server.term (some ⟨n, server.log, voters, server.log, 0⟩)
    acked := set₂ s.acked server.term n server.log.length }

def appendEntry (s : State N E) (n : N) (entry : E) (l : Leadership N E) : State N E :=
  let server := s.server n
  { s.setServer n { server with log := server.log ++ [entry] } with
    led := update s.led server.term (some { l with log := server.log ++ [entry] })
    acked := set₂ s.acked server.term n (server.log.length + 1) }

def acceptEntries (s : State N E) (n : N) (term prev count leaderCommit : ℕ) (l : Leadership N E) :
    State N E :=
  let server := s.server n
  let commitIndex := max server.commitIndex (min leaderCommit (prev + count))
  { s.setServer n
      { term := term
        role := .follower
        log := appendEntries termOf server.log prev ((l.log.drop prev).take count)
        commitIndex := commitIndex
        known := max server.known commitIndex } with
    acked := set₂ s.acked term n (max (s.acked term n) (prev + count)) }

def commitTo (s : State N E) (n : N) (index : ℕ) (l : Leadership N E) : State N E :=
  let server := s.server n
  { s.setServer n { server with commitIndex := index, known := max server.known index } with
    led := update s.led server.term (some { l with commit := max l.commit index }) }

section Projections

variable (s : State N E) (n : N)

@[simp] theorem startCampaign_server : (s.startCampaign n).server n =
    { s.server n with term := (s.server n).term + 1, role := .candidate } := s.setServer_self n _

@[simp] theorem grantVote_server (candidate : N) (term : ℕ) : (s.grantVote n candidate term).server n =
    { s.server n with
      term := term, role := if (s.server n).term < term then .follower else (s.server n).role } :=
  s.setServer_self n _

@[simp] theorem becomeLeader_server (voters : List N) : (s.becomeLeader n voters).server n =
    { s.server n with role := .leader } := s.setServer_self n _

@[simp] theorem becomeLeader_led (voters : List N) : (s.becomeLeader n voters).led (s.server n).term =
    some ⟨n, (s.server n).log, voters, (s.server n).log, 0⟩ := update_self ..

theorem becomeLeader_led_of_ne (voters : List N) {term : ℕ} (h : term ≠ (s.server n).term) :
    (s.becomeLeader n voters).led term = s.led term := update_of_ne h ..

theorem becomeLeader_acked (voters : List N) (term : ℕ) (n' : N) : (s.becomeLeader n voters).acked term n' =
    if term = (s.server n).term ∧ n' = n then (s.server n).log.length else s.acked term n' := set₂_apply ..

@[simp] theorem appendEntry_server (entry : E) (l : Leadership N E) : (s.appendEntry n entry l).server n =
    { s.server n with log := (s.server n).log ++ [entry] } := s.setServer_self n _

@[simp] theorem appendEntry_led (entry : E) (l : Leadership N E) :
    (s.appendEntry n entry l).led (s.server n).term = some { l with log := (s.server n).log ++ [entry] } :=
  update_self ..

theorem appendEntry_led_of_ne (entry : E) (l : Leadership N E) {term : ℕ} (h : term ≠ (s.server n).term) :
    (s.appendEntry n entry l).led term = s.led term := update_of_ne h ..

theorem appendEntry_acked (entry : E) (l : Leadership N E) (term : ℕ) (n' : N) :
    (s.appendEntry n entry l).acked term n' =
      if term = (s.server n).term ∧ n' = n then (s.server n).log.length + 1 else s.acked term n' :=
  set₂_apply ..

@[simp] theorem acceptEntries_server (term prev count leaderCommit : ℕ) (l : Leadership N E) :
    (s.acceptEntries termOf n term prev count leaderCommit l).server n =
      { term := term
        role := .follower
        log := appendEntries termOf (s.server n).log prev ((l.log.drop prev).take count)
        commitIndex := max (s.server n).commitIndex (min leaderCommit (prev + count))
        known := max (s.server n).known (max (s.server n).commitIndex (min leaderCommit (prev + count))) } :=
  s.setServer_self n _

theorem acceptEntries_acked (term prev count leaderCommit : ℕ) (l : Leadership N E) (term' : ℕ) (n' : N) :
    (s.acceptEntries termOf n term prev count leaderCommit l).acked term' n' =
      if term' = term ∧ n' = n then max (s.acked term n) (prev + count) else s.acked term' n' :=
  set₂_apply ..

@[simp] theorem commitTo_server (index : ℕ) (l : Leadership N E) : (s.commitTo n index l).server n =
    { s.server n with commitIndex := index, known := max (s.server n).known index } := s.setServer_self n _

@[simp] theorem commitTo_led (index : ℕ) (l : Leadership N E) :
    (s.commitTo n index l).led (s.server n).term = some { l with commit := max l.commit index } :=
  update_self ..

end Projections

end State

variable (members : List N)

def step (s : State N E) : Act N E → Option (State N E)
  | .campaign n => some (s.startCampaign n)
  | .vote v c term =>
    if (s.server v).term ≤ term ∧ s.votedFor term v = none ∧
        ∃ log ∈ s.campaign term c, UpToDate termOf log (s.server v).log then
      some (s.grantVote v c term)
    else none
  | .win n voters =>
    if (s.server n).role = .candidate ∧ majority members voters ∧
        ∀ v ∈ voters, s.votedFor (s.server n).term v = some n then
      some (s.becomeLeader n voters)
    else none
  | .append n entry =>
    if (s.server n).role = .leader ∧ termOf entry = (s.server n).term then
      (s.led (s.server n).term).map (s.appendEntry n entry)
    else none
  | .replicate n term prev count leaderCommit =>
    (s.led term).bind fun l =>
      if l.node ≠ n ∧ (s.server n).term ≤ term ∧ prev + count ≤ l.log.length ∧ leaderCommit ≤ l.commit ∧
          PrevMatches termOf (s.server n).log l.log prev then
        some (s.acceptEntries termOf n term prev count leaderCommit l)
      else none
  | .commit n index voters =>
    -- only an entry of the leader's own term is committed by counting
    if (s.server n).role = .leader ∧ (s.server n).commitIndex < index ∧
        ((s.server n).log[index - 1]?).map termOf = some (s.server n).term ∧
          majority members voters ∧ ∀ v ∈ voters, index ≤ s.acked (s.server n).term v then
      (s.led (s.server n).term).map (s.commitTo n index)
    else none
  | .follow n term =>
    if (s.server n).term < term then
      some (s.setServer n { s.server n with term := term, role := .follower })
    else none
  | .restart n => some (s.setServer n { s.server n with role := .follower, commitIndex := 0 })

end Goblin.Lib.Consensus
