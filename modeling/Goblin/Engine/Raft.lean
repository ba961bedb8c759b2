import Goblin.Model.Event

/-! The Raft library as the engine sees it through `RaftInterface`: what the engine may ask, and the
steps that the library takes on its own under the safety guarantees of Raft. -/
namespace Goblin.Engine

open Model

inductive RaftRole
  | Leader | Follower
  deriving DecidableEq, Repr

/-- An entry without a bundle is the noop that a new leader appends. -/
structure LogEntry where
  term : ℕ
  bundle : Option (List Event)
  deriving DecidableEq, Repr

/-- A request asks for one place in the log. -/
structure ClientRequest where
  index : ℕ
  entry : LogEntry
  deriving DecidableEq, Repr

/-- The entry with index `i` is `log[i - 1]`. `committed` counts the entries that are known to be
committed, also across a restart, after which `commitIndex` starts again from 0. `led` keeps, for each
term that this node has led, the log it had as leader of that term. -/
structure Raft where
  currentTerm : ℕ := 0
  role : RaftRole := .Follower
  log : List LogEntry := []
  commitIndex : ℕ := 0
  requests : List ClientRequest := []
  committed : ℕ := 0
  led : ℕ → Option (List LogEntry) := fun _ => none

/-- The entry with an index; there is none with index 0. -/
def entryAt (log : List LogEntry) (index : ℕ) : Option LogEntry :=
  if index = 0 then none else log[index - 1]?

/-- The bundle of the entry with an index, unless it is a noop. -/
def bundleAt (log : List LogEntry) (index : ℕ) : Option (List Event × ℕ) :=
  ((entryAt log index).bind LogEntry.bundle).map fun bundle => (bundle, index)

/-- The versions of the bundles in a log. -/
def bundleVersions (log : List LogEntry) : List ℕ :=
  log.filterMap fun entry => entry.bundle.map getVersionFromBundle

/-- The version of the newest bundle, or `kInvalidVersion` when there is none. -/
def newestVersion (log : List LogEntry) : ℕ :=
  (bundleVersions log).getLastD kInvalidVersion

/-- The events of a log in order. -/
def logEvents (log : List LogEntry) : List Event :=
  log.flatMap fun entry => entry.bundle.getD []

/-- Terms do not decrease and versions increase along a log. -/
def Ordered (log : List LogEntry) : Prop :=
  log.Pairwise (fun e f => e.term ≤ f.term) ∧
    (kInvalidVersion :: bundleVersions log).Pairwise (· < ·)

instance (log : List LogEntry) : Decidable (Ordered log) := by
  unfold Ordered
  infer_instance

namespace Raft

def getLastLogIndex (r : Raft) : ℕ := r.log.length

def getEntry (r : Raft) (index : ℕ) : Option LogEntry :=
  entryAt r.log index

/-- The bundles of `size` entries from `startIndex` on, with their indexes. -/
def loadBundles (r : Raft) (startIndex size : ℕ) : List (List Event × ℕ) :=
  (List.range' startIndex size).filterMap (bundleAt r.log)

def enqueueClientRequests (r : Raft) (reqs : List ClientRequest) : Raft :=
  { r with requests := r.requests ++ reqs }

/-- Log matching for the terms of this node: a log with an entry of such a term agrees up to there
with the log that this node had as leader. -/
def Matches (r : Raft) (log : List LogEntry) : Prop :=
  ∀ n < log.length, ∀ entry ∈ log[n]?, ∀ own ∈ r.led entry.term,
    log.take (n + 1) = own.take (n + 1)

/-- The log that a leader may impose on this node: committed entries stay, no entry is of a term that lies ahead, and
terms do not decrease. -/
def Admits (r : Raft) (log : List LogEntry) : Prop :=
  r.committed ≤ log.length ∧ log.take r.committed = r.log.take r.committed ∧
    (∀ entry ∈ log, entry.term ≤ r.currentTerm) ∧ log.Pairwise (fun e f => e.term ≤ f.term) ∧
    r.Matches log

instance (r : Raft) (log : List LogEntry) : Decidable (r.Matches log) := by
  unfold Matches
  infer_instance

instance (r : Raft) (log : List LogEntry) : Decidable (r.Admits log) := by
  unfold Admits
  infer_instance

/-- A node is elected in a newer term, or as a candidate in the one that it has entered. -/
def Electable (r : Raft) (term : ℕ) : Prop :=
  r.currentTerm < term ∨ r.role = .Follower ∧ r.currentTerm = term ∧ 0 < term

instance (r : Raft) (term : ℕ) : Decidable (r.Electable term) := by
  unfold Electable
  infer_instance

/-- `follow` enters a newer term, `elect` makes this node the leader of a term, `receive` takes over the log of a
leader, `commit` advances the commit index, and `accept` handles the oldest client request. -/
inductive Act
  | follow (term : ℕ)
  | elect (term : ℕ)
  | receive (log : List LogEntry)
  | commit (index : ℕ)
  | accept

def append (r : Raft) (entry : LogEntry) : Raft :=
  { r with
    log := r.log ++ [entry]
    led := Function.update r.led entry.term (some (r.log ++ [entry])) }

def step (r : Raft) : Act → Option Raft
  | .follow term =>
    if r.currentTerm < term then some { r with currentTerm := term, role := .Follower } else none
  | .elect term =>
    if r.Electable term then
      some (append { r with currentTerm := term, role := .Leader } ⟨term, none⟩)
    else none
  | .receive log =>
    if r.role = .Follower ∧ r.Admits log then some { r with log := log } else none
  | .commit index =>
    if r.commitIndex < index ∧ index ≤ r.log.length then
      some { r with commitIndex := index, committed := max r.committed index }
    else none
  | .accept =>
    match r.requests with
    | [] => none
    | req :: rest =>
      -- a request is taken only in the term and at the index that it asks for
      if r.role = .Leader ∧ req.entry.term = r.currentTerm ∧ req.index = r.log.length + 1 then
        some (append { r with requests := rest } req.entry)
      else some { r with requests := rest }

theorem Electable.le {r : Raft} {term : ℕ} (h : r.Electable term) : r.currentTerm ≤ term :=
  h.elim Nat.le_of_lt fun h => Nat.le_of_eq h.2.1

theorem Electable.pos {r : Raft} {term : ℕ} (h : r.Electable term) : 0 < term :=
  h.elim (Nat.zero_lt_of_lt ·) fun h => h.2.2

/-- The steps as a relation, one constructor for each outcome. -/
inductive Steps (r : Raft) : Raft → Prop
  | follow (term : ℕ) (hlt : r.currentTerm < term) :
      Steps r { r with currentTerm := term, role := .Follower }
  | elect (term : ℕ) (helect : r.Electable term) :
      Steps r (append { r with currentTerm := term, role := .Leader } ⟨term, none⟩)
  | receive (log : List LogEntry) (hrole : r.role = .Follower) (hlog : r.Admits log) :
      Steps r { r with log := log }
  | commit (index : ℕ) (hlt : r.commitIndex < index) (hle : index ≤ r.log.length) :
      Steps r { r with commitIndex := index, committed := max r.committed index }
  | accept (req : ClientRequest) (rest : List ClientRequest) (hreq : r.requests = req :: rest)
      (hrole : r.role = .Leader) (hterm : req.entry.term = r.currentTerm)
      (hindex : req.index = r.log.length + 1) : Steps r (append { r with requests := rest } req.entry)
  | drop (req : ClientRequest) (rest : List ClientRequest) (hreq : r.requests = req :: rest) :
      Steps r { r with requests := rest }

theorem steps_of_step {r t : Raft} {a : Act} (h : r.step a = some t) : r.Steps t := by
  cases a with
  | follow term =>
    simp only [step] at h
    split_ifs at h with hlt
    cases h
    exact .follow term hlt
  | elect term =>
    simp only [step] at h
    split_ifs at h with helect
    cases h
    exact .elect term helect
  | receive log =>
    simp only [step] at h
    split_ifs at h with hr
    cases h
    exact .receive log hr.1 hr.2
  | commit index =>
    simp only [step] at h
    split_ifs at h with hc
    cases h
    exact .commit index hc.1 hc.2
  | accept =>
    simp only [step] at h
    split at h
    · cases h
    · rename_i req rest hreq
      split_ifs at h with ha <;> cases h
      · exact .accept req rest hreq ha.1 ha.2.1 ha.2.2
      · exact .drop req rest hreq

end Raft

end Goblin.Engine
