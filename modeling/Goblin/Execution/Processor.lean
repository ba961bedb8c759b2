import Goblin.Command.Trans
import Goblin.Store.CacheLine

/-! `CommandProcessor::doExecute` and `doFollowerReadExecute`, stage by stage and as a whole. -/
namespace Goblin.Execution

open Model Store List Option

def toResponseCode (s : Status) : ResponseCode :=
  match s.code with
  | .ok => .OK
  | .precondUnmatched => .PRECOND_NOT_MATCHED
  | .invalidArg => .BAD_REQUEST
  | .notSupported => .BAD_REQUEST
  | .wrongRoute => .WRONG_ROUTE
  | .migratedRoute => .MIGRATED_ROUTE
  | .clientRouteOutOfDate => .CLIENT_ROUTE_OUT_OF_DATE
  | .serverRouteOutOfDate => .SERVER_ROUTE_OUT_OF_DATE
  | _ => .GENERAL_ERROR

/-- The version that has to be committed before an event may be shown to a client. -/
def readVersion (curMaxVersion : ℕ) : Event → ℕ
  | .read e => if e.mIsNotFound ∧ e.mVersion = kInvalidVersion then curMaxVersion else e.mVersion
  | _ => kInvalidVersion

def maxReadVersion (curMaxVersion : ℕ) (events : List Event) : ℕ :=
  events.foldl (fun m e => max m (readVersion curMaxVersion e)) kInvalidVersion

/-- In a follower read only a key that was not found waits for everything that was allocated. -/
def followerReadVersion (maxAllocatedVersion : ℕ) : Event → Option ℕ
  | .read e => some (if e.mIsNotFound then maxAllocatedVersion else e.mVersion)
  | _ => none

def maxFollowerReadVersion (maxAllocatedVersion : ℕ) (events : List Event) : Option ℕ :=
  events.foldlM (fun m e => (followerReadVersion maxAllocatedVersion e).map (max m)) kInvalidVersion

/-- Imports are left out here as well: the branch that handles them does not collect them. -/
def isNonRead : Event → Bool
  | .read _ => false
  | .importKV _ => false
  | .write e => !e.mIsNoOp
  | .delete _ => true

/-- The version an import asks for; an import has to be the only event. -/
def expectedVersion (events : List Event) : Option ℕ :=
  events.foldlM (fun v e =>
    match e with
    | .importKV i => if events.length = 1 then some i.mImportedVersion else none
    | _ => some v) kInvalidVersion

/-- What leaves `doExecute`: a direct reply, a task for the reply loop, or a bundle for the log. -/
inductive Outcome
  | reply (response : Response)
  | replyAsync (version : ℕ) (response : Response)
  | persistAsync (version : ℕ) (response : Response) (bundle : List Event)

def Outcome.response : Outcome → Response
  | .reply response => response
  | .replyAsync _ response => response
  | .persistAsync _ response _ => response

/-- What the outcome sends to the log. -/
def Outcome.bundle : Outcome → List Event
  | .persistAsync _ _ bundle => bundle
  | _ => []

/-- The outcome once `execute` is through, with the events that `finish` gets. -/
structure Dispatched where
  outcome : Option Outcome
  events : List Event
  versions : VersionStore

def hasFailed (r : ExecResult) : Bool :=
  (!r.status.isOK && !r.status.isNotFound) || r.events.isEmpty

/-- The body of `doExecute` between `execute` and `finish`; no outcome stands for `hasError`. -/
def dispatch (c : Command) (v : VersionStore) (r : ExecResult) : Option Dispatched :=
  if hasFailed r then some ⟨none, r.events, v⟩
  else do
    let expected ← expectedVersion r.events
    if r.events.any isNonRead then
      let (version, v') := v.allocateNextVersion expected
      let events ← r.events.mapM (Event.assignVersion version)
      let response ← c.initSuccessResponse v.getCurMaxVersion r.ignoredPutKeys events
      return ⟨some (.persistAsync version response (events.filter isNonRead)), events, v'⟩
    else
      let response ← c.initSuccessResponse v.getCurMaxVersion r.ignoredPutKeys r.events
      return ⟨some (.replyAsync (maxReadVersion v.getCurMaxVersion r.events) response), r.events, v⟩

def dispatchFollowerRead (c : Command) (v : VersionStore) (r : ExecResult) : Option Dispatched :=
  if hasFailed r then some ⟨none, r.events, v⟩
  else do
    let version ← maxFollowerReadVersion v.getMaxAllocatedVersion r.events
    let response ← c.initSuccessResponse v.getCurMaxVersion r.ignoredPutKeys r.events
    return ⟨some (.replyAsync version response), r.events, v⟩

/-- The reply that is sent after `finish` when there was an error or no event. -/
def errorReply (c : Command) (v : VersionStore) (r : ExecResult) : Option Response := do
  let response ← c.initSuccessResponse v.getCurMaxVersion r.ignoredPutKeys []
  return response.fillResponse (toResponseCode r.status) r.status.detail

structure Processor where
  stores : Stores := {}
  versions : VersionStore := {}

/-- `doExecute` of a command that no other command interleaves with. `preExecute` is what the
callback returned, and the result is `none` when an assertion fails. -/
def doExecute (p : Processor) (c : Command) (preExecute : Status := .ok) :
    Option (Outcome × Processor) := do
  let _ ← c.getTargetKeys
  let (r, stores) ←
    if preExecute.isOK then c.execute.run Stores.answer p.stores
    else some ({ status := preExecute }, p.stores)
  let d ← dispatch c p.versions r
  let p' : Processor := { stores := c.finish stores d.events, versions := d.versions }
  match d.outcome with
  | some outcome => return (outcome, p')
  | none =>
    let response ← errorReply c p'.versions r
    return (.reply response, p')

/-- `doFollowerReadExecute` of a command that no other command interleaves with; the callback is not
asked. -/
def doFollowerReadExecute (p : Processor) (c : Command) : Option (Outcome × Processor) := do
  let _ ← c.getTargetKeys
  let (r, stores) ← c.execute.run Stores.answer p.stores
  let d ← dispatchFollowerRead c p.versions r
  let p' : Processor := { stores := c.finish stores d.events, versions := d.versions }
  match d.outcome with
  | some outcome => return (outcome, p')
  | none =>
    let response ← errorReply c p'.versions r
    return (.reply response, p')

/-- A command that fails replies directly, but its events are finished all the same. -/
theorem doExecute_of_hasFailed {p p' : Processor} {c : Command} {r : ExecResult} {s : Stores}
    {out : Outcome} (hrun : c.execute.run Stores.answer p.stores = some (r, s)) (hfail : hasFailed r)
    (hdo : doExecute p c = some (out, p')) :
    (∃ response, out = .reply response) ∧ p'.stores = c.finish s r.events := by
  simp only [doExecute, Status.isOK_ok, if_true, hrun, dispatch, hfail, bind_eq_bind,
    bind_some] at hdo
  obtain ⟨keys, -, hdo⟩ := bind_eq_some_iff.mp hdo
  obtain ⟨response, -, hdo⟩ := bind_eq_some_iff.mp hdo
  cases hdo
  exact ⟨⟨response, rfl⟩, rfl⟩

/-- An event as `execute` hands it over: without a version, and not an import. -/
def Pending (e : Event) : Prop :=
  e.version = kInvalidVersion ∧ ∀ i, e ≠ .importKV i

theorem expectedVersion_of_pending {events : List Event} (h : ∀ e ∈ events, Pending e) :
    expectedVersion events = some kInvalidVersion := by
  suffices hgen : ∀ (es : List Event) (n : ℕ), (∀ e ∈ es, Pending e) → ∀ v,
      es.foldlM (fun v e =>
        match e with
        | .importKV i => if n = 1 then some i.mImportedVersion else none
        | _ => some v) v = some v from hgen events events.length h kInvalidVersion
  intro es n hes v
  induction es with
  | nil => rfl
  | cons e es ih =>
    have hrest := ih fun f hf => hes f (mem_cons_of_mem _ hf)
    cases e with
    | importKV i => exact absurd rfl ((hes _ mem_cons_self).2 i)
    | read r => exact hrest
    | write w => exact hrest
    | delete d => exact hrest

theorem effect_setVersion_of_not_isNonRead {e : Event} (hp : Pending e) (h : isNonRead e = false)
    (version : ℕ) : e.effect = none ∧ (e.setVersion version).effect = none := by
  have heffect : e.effect = none := by
    cases e with
    | read r => rfl
    | write w =>
      simp only [isNonRead, Bool.not_eq_eq_eq_not, Bool.not_false] at h
      simp [Event.effect, h]
    | delete d => cases h
    | importKV i => exact absurd rfl (hp.2 i)
  exact ⟨heffect, by rw [Event.effect_setVersion, heffect]; rfl⟩

/-- No import comes with another event, so an event for the log never asks for a version. -/
theorem expectedVersion_of_isNonRead {events : List Event} (h : events.any isNonRead) {version : ℕ}
    (hv : expectedVersion events = some version) : version = kInvalidVersion := by
  suffices hgen : ∀ (es : List Event), (∀ e ∈ es, ∀ i, e = .importKV i → events.length ≠ 1) → ∀ v w,
      es.foldlM (fun v e =>
        match e with
        | .importKV i => if events.length = 1 then some i.mImportedVersion else none
        | _ => some v) v = some w → w = v by
    refine hgen events (fun e he i hi hlen => ?_) _ _ hv
    obtain ⟨f, rfl⟩ := length_eq_one_iff.mp hlen
    rw [← mem_singleton.mp he, hi] at h
    simp [isNonRead] at h
  intro es hes v w hw
  induction es with
  | nil => exact (Option.some.inj hw).symm
  | cons e es ih =>
    cases e with
    | importKV i => simp [hes _ mem_cons_self i rfl] at hw
    | read r => exact ih (fun f hf => hes f (mem_cons_of_mem _ hf)) hw
    | write w => exact ih (fun f hf => hes f (mem_cons_of_mem _ hf)) hw
    | delete d => exact ih (fun f hf => hes f (mem_cons_of_mem _ hf)) hw

theorem version_of_assignVersion {e f : Event} {version : ℕ} (h : e.assignVersion version = some f)
    (hf : isNonRead f) : f.version = version := by
  cases e with
  | read r =>
    cases h
    cases hf
  | write w | delete d =>
    simp only [Event.assignVersion] at h
    split_ifs at h
    cases h
    rfl
  | importKV i =>
    simp only [Event.assignVersion] at h
    split_ifs at h
    cases h
    cases hf

theorem isNonRead_of_assignVersion {e f : Event} {version : ℕ} (h : e.assignVersion version = some f) :
    isNonRead f = isNonRead e := by
  cases e with
  | read r =>
    cases h
    rfl
  | _ =>
    simp only [Event.assignVersion] at h
    split_ifs at h
    cases h
    rfl

theorem isNonRead_setVersion (e : Event) (version : ℕ) :
    isNonRead (e.setVersion version) = isNonRead e := by
  cases e <;> rfl

/-- What `dispatch` leaves: only a bundle for the log takes a version, which is the next one. -/
theorem dispatch_cases {c : Command} {v : VersionStore} {r : ExecResult} {d : Dispatched}
    (h : dispatch c v r = some d) :
    (d.outcome = none ∧ d.versions = v) ∨
    (∃ response, d.outcome =
        some (.replyAsync (maxReadVersion v.getCurMaxVersion r.events) response) ∧ d.versions = v) ∨
    ∃ response bundle, d.outcome = some (.persistAsync v.mNextVersion response bundle) ∧
      d.versions = { v with mNextVersion := VersionStore.successor v.mNextVersion } ∧ bundle ≠ [] ∧
      ∀ e ∈ bundle, e.version = v.mNextVersion := by
  unfold dispatch at h
  by_cases hfail : hasFailed r
  · rw [if_pos hfail] at h
    cases h
    exact .inl ⟨rfl, rfl⟩
  rw [if_neg hfail] at h
  obtain ⟨expected, hexpected, h⟩ := bind_eq_some_iff.mp h
  split_ifs at h with hany
  · have hzero := expectedVersion_of_isNonRead hany hexpected
    subst hzero
    simp only [VersionStore.allocateNextVersion, if_true] at h
    obtain ⟨events, hevents, h⟩ := bind_eq_some_iff.mp h
    obtain ⟨response, -, h⟩ := bind_eq_some_iff.mp h
    cases h
    refine .inr (.inr ⟨response, _, rfl, rfl, ?_, fun f hf => ?_⟩)
    · obtain ⟨e, he, hnon⟩ := any_eq_true.mp hany
      obtain ⟨f, hf, hef⟩ := exists_mem_of_mapM_left hevents he
      exact ne_nil_of_mem
        (mem_filter.mpr ⟨hf, (isNonRead_of_assignVersion hef).trans hnon⟩)
    · obtain ⟨hf, hnon⟩ := mem_filter.mp hf
      obtain ⟨e, -, hef⟩ := exists_mem_of_mapM_right hevents hf
      exact version_of_assignVersion hef hnon
  · obtain ⟨response, -, h⟩ := bind_eq_some_iff.mp h
    cases h
    exact .inr (.inl ⟨response, rfl, rfl⟩)

theorem dispatchFollowerRead_cases {c : Command} {v : VersionStore} {r : ExecResult} {d : Dispatched}
    (h : dispatchFollowerRead c v r = some d) :
    (d.outcome = none ∧ d.versions = v) ∨
    ∃ version response, maxFollowerReadVersion v.getMaxAllocatedVersion r.events = some version ∧
      d.outcome = some (.replyAsync version response) ∧ d.versions = v := by
  unfold dispatchFollowerRead at h
  by_cases hfail : hasFailed r
  · rw [if_pos hfail] at h
    cases h
    exact .inl ⟨rfl, rfl⟩
  · rw [if_neg hfail] at h
    obtain ⟨version, hversion, h⟩ := bind_eq_some_iff.mp h
    obtain ⟨response, -, h⟩ := bind_eq_some_iff.mp h
    cases h
    exact .inr ⟨version, response, hversion, rfl, rfl⟩

section Succeeds

variable {p : Processor} {c : Command} {r : ExecResult} {s : Stores} {keys : List KeyType}
  {response : Response}

theorem doExecute_persist (hkeys : c.getTargetKeys = some keys)
    (hrun : c.execute.run Stores.answer p.stores = some (r, s)) (hok : hasFailed r = false)
    (hpending : ∀ e ∈ r.events, Pending e) (hany : r.events.any isNonRead)
    (hresp : c.initSuccessResponse p.versions.mMaxVersion r.ignoredPutKeys
      (r.events.map (Event.setVersion p.versions.mNextVersion)) = some response) :
    doExecute p c = some
      (.persistAsync p.versions.mNextVersion response
        ((r.events.map (Event.setVersion p.versions.mNextVersion)).filter isNonRead),
      { stores := c.finish s (r.events.map (Event.setVersion p.versions.mNextVersion))
        versions := { p.versions with mNextVersion := VersionStore.successor p.versions.mNextVersion } }) := by
  have hassign := Event.mapM_assignVersion p.versions.mNextVersion fun e he => (hpending e he).1
  have hdispatch : dispatch c p.versions r = some
      ⟨some (.persistAsync p.versions.mNextVersion response
        ((r.events.map (Event.setVersion p.versions.mNextVersion)).filter isNonRead)),
        r.events.map (Event.setVersion p.versions.mNextVersion),
        { p.versions with mNextVersion := VersionStore.successor p.versions.mNextVersion }⟩ := by
    simp [dispatch, hok, expectedVersion_of_pending hpending, hany, VersionStore.allocateNextVersion,
      hassign, VersionStore.getCurMaxVersion, hresp]
  simp [doExecute, hkeys, hrun, hdispatch]

theorem doExecute_replyAsync (hkeys : c.getTargetKeys = some keys)
    (hrun : c.execute.run Stores.answer p.stores = some (r, s)) (hok : hasFailed r = false)
    (hpending : ∀ e ∈ r.events, Pending e) (hany : r.events.any isNonRead = false)
    (hresp : c.initSuccessResponse p.versions.mMaxVersion r.ignoredPutKeys r.events = some response) :
    doExecute p c = some
      (.replyAsync (maxReadVersion p.versions.mMaxVersion r.events) response,
      { stores := c.finish s r.events, versions := p.versions }) := by
  have hdispatch : dispatch c p.versions r = some
      ⟨some (.replyAsync (maxReadVersion p.versions.mMaxVersion r.events) response), r.events,
        p.versions⟩ := by
    simp [dispatch, hok, expectedVersion_of_pending hpending, hany, VersionStore.getCurMaxVersion, hresp]
  simp [doExecute, hkeys, hrun, hdispatch]

end Succeeds

section Results

open KVTransCommand

variable {isMetaReturned : Bool} {r r' : ResponseState}

theorem addResult_results {entry : Entry} {event : Event} (h : addResult isMetaReturned r entry event = some r') :
    ∃ x, r'.results = r.results ++ [x] ∧
      ∀ code version, x = .write code version → ∃ w, event = .write w ∧ w.mVersion = version := by
  cases entry with
  | write e =>
    cases event with
    | write w =>
      cases h
      exact ⟨_, rfl, fun _ _ hx => ⟨w, rfl, (Result.write.inj hx).2⟩⟩
    | _ => cases h
  | read e =>
    cases event with
    | read v =>
      cases h
      refine ⟨_, rfl, fun code version hx => ?_⟩
      unfold ReadEvent.result at hx
      split_ifs at hx
    | _ => cases h
  | remove e =>
    cases event with
    | read v =>
      simp only [addResult] at h
      split_ifs at h
      cases h
      exact ⟨_, rfl, fun _ _ hx => by cases hx⟩
    | delete d =>
      cases h
      exact ⟨_, rfl, fun _ _ hx => by cases hx⟩
    | _ => cases h
  | unset => cases h

/-- One result for each entry; the version of a write is that of its event. -/
theorem addResults_results {entries : List Entry} {events : List Event}
    (h : addResults isMetaReturned entries events r = some r') :
    ∃ more, r'.results = r.results ++ more ∧ more.length = entries.length ∧
      ∀ code version, .write code version ∈ more → ∃ w, .write w ∈ events ∧ w.mVersion = version := by
  induction entries generalizing events r with
  | nil =>
    cases events with
    | nil =>
      cases h
      exact ⟨[], by simp, rfl, nofun⟩
    | cons => cases h
  | cons entry entries ih =>
    cases events with
    | nil => cases h
    | cons event events =>
      obtain ⟨r₁, hstep, hrest⟩ := bind_eq_some_iff.mp h
      obtain ⟨x, hresult, hx⟩ := addResult_results hstep
      obtain ⟨more, hmore, hlen, hwrites⟩ := ih hrest
      refine ⟨x :: more, by simp [hmore, hresult], by simp [hlen], fun code version hmem => ?_⟩
      rcases mem_cons.mp hmem with heq | hmem
      · obtain ⟨w, rfl, hw⟩ := hx code version heq.symm
        exact ⟨w, mem_cons_self, hw⟩
      · obtain ⟨w, hw, hversion⟩ := hwrites code version hmem
        exact ⟨w, mem_cons_of_mem _ hw, hversion⟩

end Results

end Goblin.Execution
