import Goblin.Engine.Apply

/-! Terms: what a node knows about its own leaderships, and the order in which the terms of Raft, of
the processor and of the requests on their way follow each other. -/
namespace Goblin.Engine

open Model Store Execution List Option Function

/-- `led` records this node's leaderships: the current one with the current log, older ones as they
were, and all of them in agreement with the log. -/
structure Raft.Inv (r : Raft) : Prop where
  led_le : ∀ term own, r.led term = some own → term ≤ r.currentTerm
  led_zero : r.led 0 = none
  led_current : r.led r.currentTerm = if r.role = .Leader then some r.log else none
  term_le : ∀ entry ∈ r.log, entry.term ≤ r.currentTerm
  sorted : r.log.Pairwise (fun e f => e.term ≤ f.term)
  agrees : r.Matches r.log

namespace Raft.Inv

variable {r t : Raft}

theorem led_eq_none (h : r.Inv) {term : ℕ} (hlt : r.currentTerm < term) : r.led term = none := by
  cases hl : r.led term with
  | none => rfl
  | some own => exact absurd (h.led_le term own hl) (Nat.not_le.mpr hlt)

theorem role_eq (h : r.Inv) {own : List LogEntry} (hl : r.led r.currentTerm = some own) :
    r.role = .Leader := by
  rw [h.led_current] at hl
  split_ifs at hl with hr
  exact hr

theorem log_eq_of_led (h : r.Inv) {own : List LogEntry} (hown : r.led r.currentTerm = some own) :
    own = r.log := by
  have hcur := h.led_current
  rw [hown, if_pos (h.role_eq hown)] at hcur
  exact Option.some.inj hcur

theorem pos_of_leader (h : r.Inv) (hrole : r.role = .Leader) : 0 < r.currentTerm := by
  refine Nat.pos_of_ne_zero fun h0 => ?_
  have hcur := h.led_current
  rw [h0, h.led_zero, if_pos hrole] at hcur
  cases hcur

theorem follow (h : r.Inv) {term : ℕ} (hlt : r.currentTerm < term) :
    Raft.Inv { r with currentTerm := term, role := .Follower } :=
  { h with
    led_le n own hn := (h.led_le n own hn).trans hlt.le
    led_current := h.led_eq_none hlt
    term_le entry he := (h.term_le entry he).trans hlt.le }

theorem matches_append (h : r.Matches r.log) (entry : LogEntry) :
    (r.append entry).Matches (r.log ++ [entry]) := by
  intro i hi e he own hown
  simp only [append] at hown
  by_cases hcur : e.term = entry.term
  · rw [hcur, update_self] at hown
    cases hown
    rfl
  · rw [update_of_ne hcur] at hown
    have hlt : i < r.log.length := by
      by_contra hge
      have hlast : i = r.log.length := by
        simp only [length_append, length_singleton] at hi
        omega
      subst hlast
      simp only [getElem?_concat_length, mem_def, Option.some.injEq] at he
      exact hcur (he ▸ rfl)
    rw [getElem?_append_left hlt] at he
    rw [take_append_of_le_length hlt]
    exact h i hlt e he own hown

theorem led_of_electable (h : r.Inv) {term : ℕ} (helect : r.Electable term) : r.led term = none := by
  rcases helect with hlt | ⟨hrole, rfl, -⟩
  · exact h.led_eq_none hlt
  · rw [h.led_current, hrole]
    rfl

theorem append (h : ∀ term own, r.led term = some own → term ≤ r.currentTerm) (hzero : r.led 0 = none)
    (hpos : 0 < r.currentTerm) (hle : ∀ entry ∈ r.log, entry.term ≤ r.currentTerm)
    (hsorted : r.log.Pairwise (fun e f => e.term ≤ f.term)) (hagrees : r.Matches r.log)
    (hrole : r.role = .Leader) {entry : LogEntry} (hterm : entry.term = r.currentTerm) :
    Raft.Inv (r.append entry) where
  led_le n own hn := by
    by_cases he : n = entry.term
    · exact (he.trans hterm).le
    · simp only [Raft.append, update_of_ne he] at hn
      exact h n own hn
  led_zero := (update_of_ne (show 0 ≠ entry.term by omega) _ _).trans hzero
  led_current := by simp [Raft.append, hterm, hrole]
  term_le := by
    intro e he
    rcases mem_append.mp he with he | he
    · exact hle e he
    · rw [mem_singleton.mp he]
      exact hterm.le
  sorted := by
    refine pairwise_append.mpr ⟨hsorted, pairwise_singleton _ _, ?_⟩
    intro e he f hf
    rw [mem_singleton.mp hf, hterm]
    exact hle e he
  agrees := matches_append hagrees entry

theorem step (h : r.Inv) (ht : r.Steps t) : t.Inv := by
  cases ht with
  | follow term hlt => exact h.follow hlt
  | elect term helect =>
    have hle := helect.le
    exact append (r := { r with currentTerm := term, role := .Leader })
      (fun n own hn => (h.led_le n own hn).trans hle) h.led_zero helect.pos
      (fun entry he => (h.term_le entry he).trans hle) h.sorted h.agrees rfl rfl
  | receive log hrole hlog =>
    obtain ⟨-, -, hle, hord, hagrees⟩ := hlog
    exact
      { led_le := h.led_le
        led_zero := h.led_zero
        led_current := by rw [h.led_current, hrole]; rfl
        term_le := hle
        sorted := hord
        agrees := hagrees }
  | commit index hlt hle | drop req rest hreq => exact { h with }
  | accept req rest hreq hrole hterm hindex =>
    exact append (r := { r with requests := rest }) h.led_le h.led_zero (h.pos_of_leader hrole) h.term_le
      h.sorted h.agrees hrole hterm

end Raft.Inv

namespace Raft.Steps

variable {r t : Raft}

theorem currentTerm_le (ht : r.Steps t) : r.currentTerm ≤ t.currentTerm := by
  cases ht with
  | follow term hlt => exact hlt.le
  | elect term helect => exact helect.le
  | _ => exact le_rfl

theorem led_isSome (ht : r.Steps t) {term : ℕ} (h : (r.led term).isSome) : (t.led term).isSome := by
  have happend (r : Raft) (entry : LogEntry) (h : (r.led term).isSome) :
      ((r.append entry).led term).isSome := by
    by_cases he : term = entry.term
    · simp [append, he]
    · simpa [append, update_of_ne he] using h
  cases ht with
  | elect _ _ | accept _ _ _ _ _ _ => exact happend _ _ h
  | _ => exact h

theorem requests_subset (ht : r.Steps t) : t.requests ⊆ r.requests := by
  cases ht with
  | accept req rest hreq hrole hterm hindex | drop req rest hreq =>
    rw [hreq]
    exact subset_cons_self _ _
  | _ => exact List.Subset.refl _

theorem committed_le (ht : r.Steps t) : r.committed ≤ t.committed := by
  cases ht with
  | commit index hlt hle => exact le_max_left _ _
  | _ => exact le_rfl

theorem led_eq (ht : r.Steps t) (hr : r.Inv) {term : ℕ} (hled : (r.led term).isSome)
    (hreq : ∀ req ∈ r.requests, req.entry.term ≠ term) : t.led term = r.led term := by
  cases ht with
  | elect term' helect =>
    refine update_of_ne ?_ _ _
    rintro rfl
    rw [hr.led_of_electable helect] at hled
    cases hled
  | accept req rest hreqs hrole hreqterm hindex =>
    exact update_of_ne (hreq req (hreqs ▸ mem_cons_self)).symm _ _
  | _ => rfl

theorem entryAt_eq (ht : r.Steps t) (hlen : r.committed ≤ r.log.length) {index : ℕ}
    (hindex : index ≤ r.committed) : entryAt t.log index = entryAt r.log index := by
  cases ht with
  | elect term helect | accept req rest hreq hrole hterm hidx =>
    exact entryAt_eq_of_take (take_append_of_le_length (hindex.trans hlen)) le_rfl
  | receive log hrole hlog => exact entryAt_eq_of_take hlog.2.1 hindex
  | _ => rfl

end Raft.Steps

/-- The version of the bundle in an entry. -/
def LogEntry.version (entry : LogEntry) : ℕ :=
  entry.bundle.elim kInvalidVersion getVersionFromBundle

/-- Terms and versions of the bundles that are on their way to the log, oldest first. -/
def Node.upcoming (s : Node) : List (ℕ × ℕ) :=
  (s.raft.requests ++ s.store.mBatchReqs).map (fun req => (req.entry.term, req.entry.version)) ++
    s.store.waiting.map fun e => (e.expectedTerm, getVersionFromBundle e.events)

/-- The terms of everything that commands have left for the other loops. -/
def Node.inFlight (s : Node) : List ℕ :=
  s.upcoming.map Prod.fst ++ s.tasks.map Task.mTerm

def TakeoverStage.lastLogIndex : TakeoverStage → Option ℕ
  | .waiting => none
  | .ready lastLogIndex _ => some lastLogIndex
  | .recovering lastLogIndex _ => some lastLogIndex
  | .recovered lastLogIndex => some lastLogIndex
  | .cleared lastLogIndex => some lastLogIndex
  | .termSet lastLogIndex => some lastLogIndex

/-- How the term of the processor and the term that is taken over compare. -/
def TakeoverStage.Compares (mCurTerm curTerm : ℕ) : TakeoverStage → Prop
  | .waiting => mCurTerm ≠ curTerm
  | .termSet _ => mCurTerm = curTerm
  | _ => mCurTerm < curTerm

/-- What holds while a thread takes over. Once the leader is ready, nothing on its way belongs to its
term, its log stays as it is until the term ends, and the noop of the term is committed. -/
structure TakesOver (r : Raft) (mCurTerm : ℕ) (running : List Running) (inFlight : List ℕ)
    (tk : Takeover) : Prop where
  led : (r.led tk.curTerm).isSome
  idle : running = []
  compares : tk.stage.Compares mCurTerm tk.curTerm
  inFlight_lt : tk.stage ≠ .waiting → ∀ term ∈ inFlight, term < tk.curTerm
  last : ∀ lastLogIndex ∈ tk.stage.lastLogIndex, lastLogIndex ≤ r.committed ∧
    (∀ own, r.led tk.curTerm = some own → own.length = lastLogIndex) ∧
    entryAt r.log lastLogIndex = some ⟨tk.curTerm, none⟩

/-- The term that a thread has read, if it read that this node leads. -/
def Gate.ledTerm : Gate → Option ℕ
  | .read .Leader curTerm => some curTerm
  | .waits curTerm => some curTerm
  | _ => none

/-- The command was let through because this node leads the term of the processor. -/
def Authorized (s : Node) (request : Request) : Prop :=
  request.command.isFollowerReadCmd = false → (s.raft.led s.mCurTerm).isSome

structure Terms (s : Node) : Prop where
  storage : s.storage.Inv
  raft : s.raft.Inv
  cached : s.store.mLogStoreRole = .Leader → (s.raft.led s.store.mLogStoreTerm).isSome
  gates : ∀ th ∈ s.threads, ∀ term ∈ th.gate.ledTerm, (s.raft.led term).isSome
  passes : ∀ th ∈ s.threads, th.gate = .passes → Authorized s th.request
  runs : ∀ c ∈ s.running, Authorized s c.request
  curTerm_le : s.mCurTerm ≤ s.raft.currentTerm
  started : s.mCurTerm = 0 ∨ (s.raft.led s.mCurTerm).isSome
  inFlight_le : ∀ term ∈ s.inFlight, term ≤ s.mCurTerm
  takeover : ∀ tk, s.takeover = some tk → TakesOver s.raft s.mCurTerm s.running s.inFlight tk

theorem TakesOver.log_length {r : Raft} {mCurTerm : ℕ} {running : List Running} {inFlight : List ℕ}
    {tk : Takeover} (h : TakesOver r mCurTerm running inFlight tk) (hr : r.Inv) {l : ℕ}
    (hl : l ∈ tk.stage.lastLogIndex) (hterm : r.currentTerm = tk.curTerm) : r.log.length = l := by
  obtain ⟨own, hown⟩ := isSome_iff_exists.mp h.led
  have hlog : own = r.log := hr.log_eq_of_led (hterm ▸ hown)
  exact hlog ▸ (h.last l hl).2.1 own hown

namespace Terms

variable {s t : Node}

theorem led_eq_of_takeover (h : Terms s) {r : Raft} (hr : s.raft.Steps r) {tk : Takeover}
    (htk : s.takeover = some tk) (hne : tk.stage ≠ .waiting) :
    r.led tk.curTerm = s.raft.led tk.curTerm := by
  have htak := h.takeover tk htk
  refine hr.led_eq h.raft htak.led fun req hreq => ?_
  refine (htak.inFlight_lt hne req.entry.term ?_).ne
  refine mem_append_left _ (mem_map.mpr ⟨(req.entry.term, req.entry.version), ?_, rfl⟩)
  exact mem_append_left _ (mem_map_of_mem (mem_append_left _ hreq))

theorem log_eq_of_takeover (h : Terms s) {r : Raft} (hr : s.raft.Steps r) {tk : Takeover}
    (htk : s.takeover = some tk) (hne : tk.stage ≠ .waiting) (hcur : r.currentTerm = tk.curTerm) :
    s.raft.currentTerm = tk.curTerm ∧ r.log = s.raft.log := by
  obtain ⟨own, hown⟩ := isSome_iff_exists.mp (h.takeover tk htk).led
  have hcur' : s.raft.currentTerm = tk.curTerm :=
    le_antisymm (hcur ▸ hr.currentTerm_le) (h.raft.led_le _ own hown)
  have hown' := (h.led_eq_of_takeover hr htk hne).trans hown
  rw [← hcur'] at hown
  rw [← hcur] at hown'
  exact ⟨hcur', ((h.raft.step hr).log_eq_of_led hown').symm.trans (h.raft.log_eq_of_led hown)⟩

/-- While Raft is in the term of the processor, its log only grows by requests. -/
theorem log_cases (h : Terms s) {r : Raft} (hr : s.raft.Steps r) (hled : (r.led s.mCurTerm).isSome)
    (hcur : r.currentTerm = s.mCurTerm) :
    (r.log = s.raft.log ∧ r.requests.Sublist s.raft.requests ∧ (s.raft.led s.mCurTerm).isSome ∧
      s.raft.currentTerm = s.mCurTerm) ∨
    ∃ req rest, s.raft.requests = req :: rest ∧ req.index = s.raft.log.length + 1 ∧
      req.entry.term = s.mCurTerm ∧ (s.raft.led s.mCurTerm).isSome ∧ s.raft.currentTerm = s.mCurTerm ∧
      r = Raft.append { s.raft with requests := rest } req.entry := by
  have hle := h.curTerm_le
  cases hr with
  | follow term hlt => exact absurd hcur (show term ≠ s.mCurTerm by omega)
  | elect term helect =>
    -- this node has not led the term before, so it is not the one of the processor
    cases (show term = s.mCurTerm from hcur)
    rcases h.started with h0 | hled'
    · exact absurd h0 helect.pos.ne'
    · rw [h.raft.led_of_electable helect] at hled'
      cases hled'
  | receive log hrole hlog =>
    obtain ⟨own, hown⟩ := isSome_iff_exists.mp hled
    have hcurrent : s.raft.led s.raft.currentTerm = some own := by rw [hcur]; exact hown
    rw [h.raft.role_eq hcurrent] at hrole
    cases hrole
  | commit index hlt hle => exact .inl ⟨rfl, .refl _, hled, hcur⟩
  | accept req rest hreq hrole hterm hindex =>
    replace hcur : s.raft.currentTerm = s.mCurTerm := hcur
    refine .inr ⟨req, rest, hreq, hindex, hterm.trans hcur, ?_, hcur, rfl⟩
    rw [← hcur, h.raft.led_current, if_pos hrole]
    rfl
  | drop req rest hreq => exact .inl ⟨rfl, hreq ▸ sublist_cons_self _ _, hled, hcur⟩

theorem raftStep (h : Terms s) {r : Raft} (hr : s.raft.Steps r) : Terms { s with raft := r } := by
  have hsub : ∀ term ∈ Node.inFlight { s with raft := r }, term ∈ s.inFlight := by
    intro term ht
    have hreqs : ∀ pair ∈ Node.upcoming { s with raft := r }, pair ∈ s.upcoming := by
      intro pair hp
      simp only [Node.upcoming, map_append, mem_append] at hp ⊢
      exact hp.imp_left (Or.imp_left fun hp => map_subset _ hr.requests_subset hp)
    rcases mem_append.mp ht with ht | ht
    · exact mem_append_left _ (map_subset _ hreqs ht)
    · exact mem_append_right _ ht
  exact
    { storage := h.storage.step hr.storage
      raft := h.raft.step hr
      cached := fun hrole => hr.led_isSome (h.cached hrole)
      gates := fun th hth term ht => hr.led_isSome (h.gates th hth term ht)
      passes := fun th hth hgate hcmd => hr.led_isSome (h.passes th hth hgate hcmd)
      runs := fun c hc hcmd => hr.led_isSome (h.runs c hc hcmd)
      curTerm_le := h.curTerm_le.trans hr.currentTerm_le
      started := h.started.imp_right hr.led_isSome
      inFlight_le := fun term ht => h.inFlight_le term (hsub term ht)
      takeover := by
        intro tk htk
        have htak := h.takeover tk htk
        refine ⟨hr.led_isSome htak.led, htak.idle, htak.compares,
          fun hne term ht => htak.inFlight_lt hne term (hsub term ht), fun l hl => ?_⟩
        obtain ⟨hcommitted, hown, hnoop⟩ := htak.last l hl
        have hne : tk.stage ≠ .waiting := by
          intro hw
          rw [hw] at hl
          cases hl
        refine ⟨hcommitted.trans hr.committed_le, h.led_eq_of_takeover hr htk hne ▸ hown, ?_⟩
        exact (hr.entryAt_eq h.storage.committed_le hcommitted).trans hnoop }

theorem ready (h : Terms s) {tk : Takeover} {maxVersion : ℕ} (htk : s.takeover = some tk)
    (hstage : tk.stage = .waiting) (hterm : s.raft.currentTerm = tk.curTerm)
    (hready : s.leaderIsReady tk.curTerm) :
    Terms { s with takeover := some { tk with
      stage := .ready s.raft.getLastLogIndex maxVersion } } := by
  have htak := h.takeover tk htk
  have hlt : s.mCurTerm < tk.curTerm := by
    have hne := htak.compares
    rw [hstage] at hne
    exact lt_of_le_of_ne (hterm ▸ h.curTerm_le) hne
  refine { h with takeover := ?_ }
  intro tk' htk'
  cases htk'
  refine ⟨htak.led, htak.idle, hlt, fun _ term ht => (h.inFlight_le term ht).trans_lt hlt, ?_⟩
  intro l hl
  cases hl
  simp only [Node.leaderIsReady, Raft.onlyNoopsAfter, Bool.and_eq_true, decide_eq_true_eq,
    Option.any_eq_true] at hready
  obtain ⟨⟨-, hcommit⟩, ⟨hlt', hall⟩, ⟨term, bundle⟩, hlast, hnoopterm⟩ := hready
  refine ⟨hcommit.symm.trans_le h.storage.commitIndex_le, fun own hown => ?_, ?_⟩
  · change s.raft.led tk.curTerm = some own at hown
    have hlog : own = s.raft.log := h.raft.log_eq_of_led (hterm ▸ hown)
    exact congrArg List.length hlog
  · have hne : s.raft.log ≠ [] := ne_nil_of_length_pos (Nat.zero_lt_of_lt hlt')
    have hdrop : s.raft.log.drop s.store.mAppliedIndex ≠ [] := by
      simpa [drop_eq_nil_iff] using hlt'
    have hnoop := all_eq_true.mp hall _ (getLast_mem hdrop)
    rw [getLast_drop hdrop] at hnoop
    rw [getLast?_eq_some_getLast hne] at hlast
    rw [Option.some.inj hlast] at hnoop
    cases isNone_iff_eq_none.mp hnoop
    cases (hnoopterm : term = tk.curTerm)
    change (if s.raft.log.length = 0 then none else s.raft.log[s.raft.log.length - 1]?) = _
    rw [if_neg (by simpa using hne), ← getLast?_eq_getElem?, getLast?_eq_some_getLast hne]
    exact hlast

theorem setGate (h : Terms s) {i : ℕ} {request : Request} {gate : Gate}
    (hgate : ∀ term ∈ gate.ledTerm, (s.raft.led term).isSome)
    (hpass : gate = .passes → Authorized s request) : Terms (s.setGate i request gate) := by
  refine { h with gates := ?_, passes := ?_ }
  · intro th hth
    rcases mem_or_eq_of_mem_set hth with hth | rfl
    · exact h.gates th hth
    · exact hgate
  · intro th hth
    rcases mem_or_eq_of_mem_set hth with hth | rfl
    · exact h.passes th hth
    · exact hpass

theorem pushThread (h : Terms s) (request : Request) {gate : Gate} (hgate : gate.ledTerm = none) :
    ∀ th ∈ s.threads ++ [⟨request, gate⟩], ∀ term ∈ th.gate.ledTerm, (s.raft.led term).isSome := by
  intro th hth term ht
  rcases mem_append.mp hth with hth | hth
  · exact h.gates th hth term ht
  · rw [mem_singleton.mp hth, hgate] at ht
    cases ht

theorem pushThread_passes (h : Terms s) (request : Request) {gate : Gate}
    (hgate : gate = .passes → Authorized s request) :
    ∀ th ∈ s.threads ++ [⟨request, gate⟩], th.gate = .passes → Authorized s th.request := by
  intro th hth hpass
  rcases mem_append.mp hth with hth | hth
  · exact h.passes th hth hpass
  · rw [mem_singleton.mp hth] at hpass ⊢
    exact hgate hpass

theorem eraseThread (h : Terms s) (i : ℕ) :
    ∀ th ∈ s.threads.eraseIdx i, ∀ term ∈ th.gate.ledTerm, (s.raft.led term).isSome :=
  fun th hth => h.gates th (mem_of_mem_eraseIdx hth)

theorem eraseThread_passes (h : Terms s) (i : ℕ) :
    ∀ th ∈ s.threads.eraseIdx i, th.gate = .passes → Authorized s th.request :=
  fun th hth => h.passes th (mem_of_mem_eraseIdx hth)

theorem takeover_eq_none (h : Terms s) {i : ℕ} {c : Running} (hc : s.running[i]? = some c) :
    s.takeover = none := by
  cases htk : s.takeover with
  | none => rfl
  | some tk => simp [(h.takeover tk htk).idle] at hc

theorem move (h : Terms s) {requests batch : List ClientRequest} {queue : List PersistEntry} {lastSent : ℕ}
    {dequeuing : Option Dequeue} {tasks : List Task} {toUpdate : List Update} {replies : List Reply}
    (hsub : ∀ term ∈ Node.inFlight { s with
        raft := { s.raft with requests := requests }
        store := { s.store with mPersistQueue := queue, mBatchReqs := batch, dequeuing := dequeuing }
        tasks := tasks }, term ∈ s.inFlight) :
    Terms { s with
      raft := { s.raft with requests := requests }
      store := { s.store with
        mPersistQueue := queue
        mBatchReqs := batch
        mLastSentLogIndex := lastSent
        dequeuing := dequeuing }
      tasks := tasks
      toUpdate := toUpdate
      replies := replies } :=
  { h with
    raft := { h.raft with }
    inFlight_le := fun term ht => h.inFlight_le term (hsub term ht)
    takeover := fun tk htk =>
      { h.takeover tk htk with
        inFlight_lt := fun hne term ht => (h.takeover tk htk).inFlight_lt hne term (hsub term ht) } }

theorem nextStage (h : Terms s) {tk : Takeover} {stage : TakeoverStage} {mCurTerm l : ℕ}
    (htk : s.takeover = some tk) (hl : tk.stage.lastLogIndex = some l)
    (hl' : stage.lastLogIndex = some l) (hcompares : stage.Compares mCurTerm tk.curTerm) :
    TakesOver s.raft mCurTerm s.running s.inFlight { tk with stage := stage } := by
  have htak := h.takeover tk htk
  have hne : tk.stage ≠ .waiting := by
    intro hw
    rw [hw] at hl
    cases hl
  exact
    { htak with
      compares := hcompares
      inFlight_lt := fun _ => htak.inFlight_lt hne
      last := by rw [hl', ← hl]; exact htak.last }

theorem run (h : Terms s) {mem : InMemoryKVStore} {versions : VersionStore} {running : List Running}
    {queue : List PersistEntry} {tasks : List Task} {replies : List Reply} (hfree : s.takeover = none)
    (hruns : ∀ c ∈ running, Authorized s c.request)
    (hsub : ∀ term ∈ Node.inFlight
      { s with store := { s.store with mPersistQueue := queue }, tasks := tasks },
      term ∈ s.inFlight ∨ term = s.mCurTerm) :
    Terms { s with
      stores := { s.stores with mem := mem }
      store := { s.store with mPersistQueue := queue }
      versions := versions
      running := running
      tasks := tasks
      replies := replies } :=
  { h with
    runs := hruns
    inFlight_le := fun term ht => (hsub term ht).elim (h.inFlight_le term) le_of_eq
    takeover := fun _ htk => nomatch hfree.symm.trans htk }

theorem set_runs (h : Terms s) {i : ℕ} {c : Running} (hc : s.running[i]? = some c) (stage : Stage) :
    ∀ c' ∈ s.running.set i ⟨c.request, stage⟩, Authorized s c'.request := by
  intro c' hc'
  rcases mem_or_eq_of_mem_set hc' with hc' | rfl
  · exact h.runs c' hc'
  · exact h.runs c (mem_of_getElem? hc)

theorem setTerm (h : Terms s) {tk : Takeover} {l : ℕ} (htk : s.takeover = some tk)
    (hstage : tk.stage = .cleared l) :
    Terms { s with
      mCurTerm := tk.curTerm
      takeover := some { tk with stage := .termSet l } } := by
  have htak := h.takeover tk htk
  obtain ⟨own, hown⟩ := isSome_iff_exists.mp htak.led
  have hne : tk.stage ≠ .waiting := by
    rw [hstage]
    exact nofun
  refine
    { h with
      passes := fun _ _ _ _ => htak.led
      runs := fun _ _ _ => htak.led
      curTerm_le := h.raft.led_le _ own hown
      started := .inr htak.led
      inFlight_le := fun term ht => (htak.inFlight_lt hne term ht).le
      takeover := fun tk' htk' => ?_ }
  cases htk'
  exact h.nextStage htk (by rw [hstage]; rfl) rfl rfl

theorem advance (h : Terms s) {i : ℕ} (ht : Steps s (.advance i) t) : Terms t := by
  cases ht with
  | read i th hth hgate =>
    refine h.setGate (fun term hterm => ?_) (by rintro ⟨⟩)
    cases hrole : s.store.mLogStoreRole with
    | Leader =>
      rw [hrole] at hterm
      cases hterm
      exact h.cached hrole
    | Follower =>
      rw [hrole] at hterm
      cases hterm
  | pass i th hth hpass =>
    refine h.setGate (by rintro _ ⟨⟩) fun _ hcmd => ?_
    rcases hpass with hstale | hgate | hgate
    · rw [hstale] at hcmd
      cases hcmd
    all_goals exact h.gates th (mem_of_getElem? hth) s.mCurTerm (by rw [hgate]; rfl)
  | notLeader i th hth => exact { h with gates := h.eraseThread i, passes := h.eraseThread_passes i }
  | wait i th curTerm hth hgate hne =>
    refine h.setGate (fun term hterm => ?_) (by rintro ⟨⟩)
    cases hterm
    exact h.gates th (mem_of_getElem? hth) curTerm (by rw [hgate]; rfl)
  | takeOver i th curTerm hth hgate hfree hne hidle =>
    refine { h with gates := h.eraseThread i, passes := h.eraseThread_passes i, takeover := ?_ }
    intro tk htk
    cases htk
    exact ⟨h.gates th (mem_of_getElem? hth) curTerm (by rw [hgate]; rfl), hidle, hne,
      fun hw => absurd rfl hw, by rintro _ ⟨⟩⟩

theorem becomeLeader (h : Terms s) {callback : Status} (ht : Steps s (.becomeLeader callback) t) : Terms t := by
  cases ht with
  | stepDown callback tk htk hstage hne =>
    exact
      { h with
        gates := h.pushThread tk.request rfl
        passes := h.pushThread_passes tk.request (by rintro ⟨⟩)
        takeover := by rintro _ ⟨⟩ }
  | ready callback tk v htk hstage hterm hready hversion => exact h.ready htk hstage hterm hready
  | callbackFails callback tk l v htk hstage => exact { h with takeover := by rintro _ ⟨⟩ }
  | recover callback tk l v htk hstage | recovered callback tk l v htk hstage | clear callback tk l htk hstage =>
    have hlt := (h.takeover tk htk).compares
    rw [hstage] at hlt
    refine { h with takeover := fun tk' htk' => ?_ }
    cases htk'
    exact h.nextStage htk (by rw [hstage]; rfl) rfl hlt
  | setTerm callback tk l htk hstage => exact h.setTerm htk hstage
  | lead callback tk l htk hstage =>
    have hled : (s.raft.led s.mCurTerm).isSome := by
      have hcur := (h.takeover tk htk).compares
      rw [hstage] at hcur
      exact hcur ▸ (h.takeover tk htk).led
    exact
      { h with
        gates := h.pushThread tk.request rfl
        passes := h.pushThread_passes tk.request fun _ _ => hled
        takeover := by rintro _ ⟨⟩ }

theorem dispatch (h : Terms s) {i : ℕ} (ht : Steps s (.dispatch i) t) : Terms t := by
  cases ht with
  | refuse i c r d hc =>
    exact h.run (h.takeover_eq_none hc) (h.set_runs hc _) fun term ht => .inl ht
  | dispatchRead i c r d version response hc =>
    refine h.run (h.takeover_eq_none hc) (h.set_runs hc _) fun term ht => ?_
    simp only [Node.inFlight, Node.upcoming, map_append, map_cons, map_nil, mem_append,
      mem_singleton] at ht ⊢
    tauto
  | dispatchWrite i c r d response bundle hc =>
    refine h.run (h.takeover_eq_none hc) (h.set_runs hc _) fun term ht => ?_
    simp only [Node.inFlight, Node.upcoming, RaftEventStore.waiting_append, map_append, map_cons,
      map_nil, mem_append, mem_singleton] at ht ⊢
    tauto

theorem refreshRoleAndTerm (h : Terms s) : Terms s.refreshRoleAndTerm := by
  refine { h with cached := fun hrole => ?_ }
  change s.raft.role = .Leader at hrole
  change (s.raft.led s.raft.currentTerm).isSome
  rw [h.raft.led_current, if_pos hrole]
  rfl

theorem sendNext (h : Terms s) {e : PersistEntry} (hpopped : s.store.dequeuing = some (.popped e)) :
    Terms (s.sendNext e) := by
  refine h.move fun term ht => ?_
  simp only [Node.inFlight, Node.upcoming, RaftEventStore.waiting, RaftEventStore.popped, hpopped,
    nil_append, map_append, map_cons, map_nil, mem_append, mem_cons] at ht ⊢
  tauto

theorem sendBatch (h : Terms s) : Terms s.sendBatch := by
  refine h.move fun term ht => ?_
  simp only [Node.inFlight, Node.upcoming, map_append, map_nil, mem_append] at ht ⊢
  tauto

theorem start (h : Terms s) {i : ℕ} {preExecute : Status} (ht : Steps s (.start i preExecute) t) : Terms t := by
  cases ht with
  | start i th preExecute keys hth hkeys hgate hfree hlock =>
    refine
      { h with
        gates := h.eraseThread _
        passes := h.eraseThread_passes _
        runs := fun c hc => ?_
        takeover := fun _ htk => by cases hfree.symm.trans htk }
    rcases mem_append.mp hc with hc | hc
    · exact h.runs c hc
    · rw [mem_singleton.mp hc]
      exact h.passes th (mem_of_getElem? hth) hgate

theorem finish (h : Terms s) {i : ℕ} (ht : Steps s (.finish i) t) : Terms t := by
  cases ht with
  | finish i c r d replies hc hstage hreplies =>
    have hruns : ∀ c' ∈ s.running.eraseIdx i, Authorized s c'.request :=
      fun c' hc' => h.runs c' (mem_of_mem_eraseIdx hc')
    unfold Command.finish
    split <;> exact h.run (h.takeover_eq_none hc) hruns fun term ht => .inl ht

theorem replyTask (h : Terms s) {i : ℕ} (ht : Steps s (.replyTask i) t) : Terms t := by
  cases ht with
  | reply i task committed htask hcommitted =>
    refine h.move fun term ht => ?_
    rcases mem_append.mp ht with ht | ht
    · exact mem_append_left _ ht
    · obtain ⟨task', htask', rfl⟩ := mem_map.mp ht
      exact mem_append_right _ (mem_map_of_mem (mem_of_mem_eraseIdx htask'))

theorem step (h : Terms s) {a : Act} (ht : Steps s a t) : Terms t := by
  have hstorage := h.storage.step ht.storage
  cases a with
  | advance i => exact h.advance ht
  | becomeLeader callback => exact h.becomeLeader ht
  | start i preExecute => exact h.start ht
  | dispatch i => exact h.dispatch ht
  | finish i => exact h.finish ht
  | replyTask i => exact h.replyTask ht
  | tick _ | loadBundles _ | loadNextBundle | applyBundle | commitMilestone =>
    cases ht
    exact { h with storage := hstorage }
  | updateCurMaxVersion i => cases ht <;> exact { h with }
  | raft a =>
    cases ht with
    | raft a r hr => exact h.raftStep hr
  | refreshRoleAndTerm =>
    cases ht
    exact h.refreshRoleAndTerm
  | dequeue =>
    cases ht with
    | dequeue e rest hqueue hidle =>
      refine h.move fun term ht => ?_
      simp only [Node.inFlight, Node.upcoming, RaftEventStore.waiting_dequeue hqueue hidle] at ht ⊢
      exact ht
  | send =>
    cases ht with
    | send e hpopped => exact h.sendNext hpopped
  | compareExchange =>
    cases ht with
    | compareExchange previousLogIndex hprevious =>
      refine h.move fun term ht => ?_
      simp only [Node.inFlight, Node.upcoming, RaftEventStore.waiting_of_sent hprevious] at ht ⊢
      exact ht
  | sendBatch =>
    cases ht
    exact h.sendBatch
  | submit request =>
    cases ht
    exact { h with gates := h.pushThread request rfl, passes := h.pushThread_passes request (by rintro ⟨⟩) }
  | call i =>
    cases ht with
    | call i c o next hc hstage =>
      cases o <;> exact h.run (h.takeover_eq_none hc) (h.set_runs hc _) fun term ht => .inl ht

end Terms

end Goblin.Engine
