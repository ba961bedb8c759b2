import Goblin.Client.LockService

/-! The requests of a lock that is extended in the background when the server answers each of them once:
which version a task knows, and who deletes the key once the task is cancelled. -/
namespace Goblin.Client.LockServiceImpl

open Lib Lib.Lease List

variable {C K V : Type} [DecidableEq C] [DecidableEq K]

section Phases

/-- The put is under way or answered. -/
def LockPc.sent : LockPc → Bool
  | .registered | .replacing | .sending => false
  | _ => true

/-- Between the two writes of `status` in `extendLock`. -/
def RunPc.active : RunPc → Bool
  | .checking _ | .sending _ | .waiting _ | .answered _ _ | .retrying _ | .settling _ _ => true
  | _ => false

/-- The cas of the current attempt is under way or answered. -/
def RunPc.extendSent : RunPc → Bool
  | .waiting _ | .answered _ _ | .retrying _ | .settling _ _ => true
  | _ => false

/-- The delete is under way or answered. -/
def RunPc.dropSent : RunPc → Bool
  | .deleting _ | .unwinding _ _ | .loop | .failing | .finished => true
  | _ => false

/-- `isCanceled` is read again before this turn is over, or the delete is not answered. -/
def RunPc.drops : RunPc → Bool
  | .sending _ | .waiting _ | .answered _ _ | .retrying _ | .settling _ _ | .rechecking _ | .dropping _
  | .deleting _ => true
  | _ => false

def RunPc.isExtending : RunPc → Bool
  | .extending _ => true
  | _ => false

def RunPc.isChecking : RunPc → Bool
  | .checking _ => true
  | _ => false

/-- Outside of an attempt, with nothing under way. -/
def RunPc.resting : RunPc → Bool
  | .loop | .sleeping | .extending (_ + 1) | .rechecking _ | .dropping _ | .unwinding _ _ | .failing => true
  | _ => false

/-- The steps that a cancelled task has left at most. -/
def RunPc.rank : RunPc → ℕ
  | .idle | .finished => 0
  | .loop | .failing => 1
  | .unwinding depth _ => depth + 2
  | .deleting _ => RETRY_TIMES + 3
  | .dropping _ => RETRY_TIMES + 4
  | .rechecking _ => RETRY_TIMES + 5
  | .settling _ _ => RETRY_TIMES + 6
  | .answered _ _ => RETRY_TIMES + 7
  | .waiting _ => RETRY_TIMES + 8
  | .sending _ => RETRY_TIMES + 9
  | .checking _ => RETRY_TIMES + 10
  | .extending _ => RETRY_TIMES + 11
  | .sleeping | .retrying _ => RETRY_TIMES + 12

/-- The delete is under way or answered. -/
def UnlockPc.sent : UnlockPc → Bool
  | .found | .canceled | .sending => false
  | _ => true

/-- The status was set to `CANCELING` by this call. -/
def UnlockPc.cancels : UnlockPc → Bool
  | .sending | .waiting | .restoring _ => true
  | _ => false

def UnlockPc.isReturned : UnlockPc → Bool
  | .returned _ => true
  | _ => false

end Phases

section Conditions

/-- `unlock` finds a task whose call of `lock` has returned true, and a call of `lock` returns true before
the ttl of its put has run out. -/
def Orderly (s : State C K V) : Act C K V → Prop
  | .unlock c k => ∀ t ∈ s.lockTaskMap c k, ∃ task ∈ s.tasks[t]?, task.pc = .returned true
  | .lockStep t => ∀ task ∈ s.tasks[t]?, task.pc = .leaving → s.server.Leased Expiry.timedOut task.key t
  | _ => True

instance (s : State C K V) (a : Act C K V) : Decidable (Orderly s a) := by
  unfold Orderly
  split <;> infer_instance

/-- The server answers every request, and runs it once. -/
def Answers (s : State C K V) : Act C K V → Prop
  | .lockTimeout _ | .unlockTimeout _ | .runTimeout _ => False
  | .serve i => ∀ m ∈ s.requests[i]?, ∀ reply ∈ s.replies, reply.1 ≠ m.sender
  | _ => True

instance (s : State C K V) (a : Act C K V) : Decidable (Answers s a) := by
  unfold Answers
  split <;> infer_instance

/-- A call of `lock` with a timeout finds no task but a failed one, and without a task it is not refused;
a failed task is replaced only where it is still in the map and nobody is unlocking it; `unlock` finds a
task whose lock is granted and that nobody else is unlocking; and the two steps in which `unlock` sets
`isCanceled` and reads the status do not fall between those in which `extendLock` sets the status and reads
`isCanceled`, nor the other way round. -/
def Undisturbed (s : State C K V) : Act C K V → Prop
  | .lock c k _ timeout => timeout ≠ none → ∀ p ∈ s.lockTaskMap c k, ∀ pre ∈ s.tasks[p]?, pre.status = .failed
  | .lockStep t => ∀ task ∈ s.tasks[t]?, task.pc = .replacing →
    s.lockTaskMap task.client task.key = task.preTask ∧
      ∀ call ∈ s.unlocks, call.task ∈ task.preTask → call.pc.isReturned = true
  | .serve i => ∀ m ∈ s.requests[i]?, ∀ task ∈ s.tasks[m.sender.task]?, m.sender = .lock m.sender.task →
    task.timeout ≠ none → task.preTask = none → s.server.live Expiry.timedOut task.key = none
  | .unlock c k => ∀ t ∈ s.lockTaskMap c k, (∃ task ∈ s.tasks[t]?, task.pc = .returned true) ∧
    ∀ call ∈ s.unlocks, call.task = t → call.pc.isReturned = true
  | .unlockStep u => ∀ call ∈ s.unlocks[u]?, call.pc = .found → ∀ task ∈ s.tasks[call.task]?,
    task.run.isChecking = false
  | .runStep t => ∀ task ∈ s.tasks[t]?, task.run.isExtending = true →
    ∀ call ∈ s.unlocks, call.task = t → call.pc ≠ .canceled
  | _ => True

instance (s : State C K V) (a : Act C K V) : Decidable (Undisturbed s a) := by
  unfold Undisturbed
  split <;> infer_instance

end Conditions

section Views

/-- What the server has answered. -/
def State.answerTo (s : State C K V) (sender : Sender) : Option Answer :=
  (s.replies.find? fun reply => reply.1 = sender).map Prod.snd

def version? : Answer → Option ℕ
  | .written v => some v
  | _ => none

/-- The version that the record of a granted lock has, unless it is gone; `none` where it is. -/
def State.runClaim (s : State C K V) (t : ℕ) (task : LockTask C K V) : Option ℕ :=
  match task.run with
  | .waiting _ => (s.answerTo (.extend t task.attempt)).elim (some task.version) version?
  | .answered _ v => some v
  | .settling _ false | .unwinding _ false | .failing => none
  | .deleting _ => if (s.answerTo (.drop t)).isSome then none else some task.version
  | .finished => if task.status = .failed then none else some task.version
  | _ => some task.version

def State.claim (s : State C K V) (t : ℕ) (task : LockTask C K V) : Option ℕ :=
  match task.pc with
  | .registered | .replacing | .sending | .refused | .thrown | .failed | .returned false => none
  | .waiting => (s.answerTo (.lock t)).bind version?
  | .answered v => some v
  | .locked | .leaving | .returned true => s.runClaim t task

/-- The key is the task's. -/
def State.Owned (s : State C K V) (key : K) (t v : ℕ) : Prop :=
  ∃ r, s.server.live Expiry.timedOut key = some r ∧ r.owner = t ∧ r.version = v

/-- A call of `unlock` is about to delete the key. -/
def State.Canceling (s : State C K V) (t : ℕ) (status : TaskStatus) : Prop :=
  ∃ u call, s.unlocks[u]? = some call ∧ call.task = t ∧
    (call.pc = .canceled ∧ status = .suspending ∨ call.pc = .sending ∨
      call.pc = .waiting ∧ s.answerTo (.cancel u t) = none)

/-- How the fields of a task go together when no request fails. -/
structure Shape (task : LockTask C K V) : Prop where
  run : task.run ≠ .idle → task.timeout = none ∧ (task.pc = .leaving ∨ task.pc = .returned true)
  retries : task.run ≠ .extending 0 ∧ ∀ n, task.run ≠ .retrying n
  noThrow : task.pc ≠ .thrown ∧ task.pc ≠ .failed
  refused : task.pc = .refused → task.timeout = none ∨ task.preTask ≠ none
  active : task.run.active = true → task.status = .running
  running : task.status = .running → task.isCanceled = false → task.run.active = true
  canceling : task.status = .canceling → task.isCanceled = true
  failed : task.status = .failed → task.run = .finished
  canceled : task.isCanceled = true → task.pc = .returned true
  dropping : ∀ n, task.run = .dropping n → task.isCanceled = true

/-- The request of this sender is under way or answered. -/
def LockTask.Sent (task : LockTask C K V) : Sender → Prop
  | .lock _ => task.pc.sent = true
  | .extend _ attempt => attempt < task.attempt ∨ attempt = task.attempt ∧ task.run.extendSent = true
  | .drop _ => task.isCanceled = true ∧ task.run.dropSent = true
  | .cancel _ _ => True

/-- The request of this sender is under way. -/
def LockTask.Awaits (task : LockTask C K V) (sender : Sender) (request : Request K V) : Prop :=
  match sender with
  | .lock _ => task.pc = .waiting ∧ ∃ ttl, request = .put task.key task.value ttl
  | .extend _ attempt => attempt = task.attempt ∧ (∃ n, task.run = .waiting n) ∧
    request = .cas task.key task.value task.version EXTEND_TIME_IN_SEC
  | .drop _ => (∃ n, task.run = .deleting n) ∧ request = .delete task.key task.version
  | .cancel _ _ => request = .delete task.key task.version

structure Received (s : State C K V) (m : Message K V) (task : LockTask C K V) : Prop where
  sent : task.Sent m.sender
  awaits : s.answerTo m.sender = none → task.Awaits m.sender m.request
  call : ∀ u t, m.sender = .cancel u t → ∃ call, s.unlocks[u]? = some call ∧ call.task = t ∧
    call.pc.sent = true ∧ (s.answerTo m.sender = none → call.pc = .waiting)

/-- An answer fits its request. -/
def Fits : Sender → Answer → Prop
  | .lock _, a | .extend _ _, a => a = .unmet ∨ ∃ v, a = .written v
  | .drop _, a | .cancel _ _, a => a = .removed ∨ a = .missing

structure Waits (s : State C K V) (t : ℕ) (task : LockTask C K V) : Prop where
  extend : ∀ n, task.run = .waiting n → ∃ m ∈ s.requests, m.sender = .extend t task.attempt
  drop : ∀ n, task.run = .deleting n → ∃ m ∈ s.requests, m.sender = .drop t

structure CallOk (s : State C K V) (u : ℕ) (call : UnlockCall C K) (task : LockTask C K V) : Prop where
  returned : task.pc = .returned true
  found : call.pc = .found ↔ task.isCanceled = false
  cancels : call.pc.cancels = true → task.status = .canceling ∨ task.status = .failed
  waits : call.pc = .waiting → ∃ m ∈ s.requests, m.sender = .cancel u call.task

/-- What holds of the requests, the tasks and the calls of `unlock` together. -/
structure Exchange (s : State C K V) : Prop where
  senders : (s.replies.map Prod.fst).Nodup
  replies : ∀ reply ∈ s.replies, (∃ m ∈ s.requests, m.sender = reply.1) ∧ Fits reply.1 reply.2
  refusals : ∀ t task, (.lock t, .unmet) ∈ s.replies → s.tasks[t]? = some task →
    task.timeout = none ∨ task.preTask ≠ none
  messages : ∀ m ∈ s.requests, ∃ task, s.tasks[m.sender.task]? = some task ∧ Received s m task
  shape : ∀ (t : ℕ) task, s.tasks[t]? = some task → Shape task
  own : ∀ (t : ℕ) task, s.tasks[t]? = some task → ∀ v, s.Owned task.key t v → s.claim t task = some v
  owners : ∀ key r, s.server.live Expiry.timedOut key = some r → r.owner < s.tasks.length
  waits : ∀ (t : ℕ) task, s.tasks[t]? = some task → Waits s t task
  canceled : ∀ (t : ℕ) task, s.tasks[t]? = some task → task.isCanceled = true → ∃ call ∈ s.unlocks, call.task = t
  calls : ∀ (u : ℕ) call, s.unlocks[u]? = some call → ∃ task, s.tasks[call.task]? = some task ∧ CallOk s u call task
  oneCall : ∀ (u u' : ℕ) call call', s.unlocks[u]? = some call → s.unlocks[u']? = some call' →
    call.task = call'.task → u = u'
  release : ∀ (t : ℕ) task, s.tasks[t]? = some task → task.isCanceled = true → ∀ v, s.Owned task.key t v →
    s.Canceling t task.status ∨ task.run.drops = true

/-- What holds of one task among them. -/
structure TaskFits (s : State C K V) (t : ℕ) (task : LockTask C K V) : Prop where
  refusals : (.lock t, .unmet) ∈ s.replies → task.timeout = none ∨ task.preTask ≠ none
  shape : Shape task
  own : ∀ v, s.Owned task.key t v → s.claim t task = some v
  waits : Waits s t task
  canceled : task.isCanceled = true → ∃ call ∈ s.unlocks, call.task = t
  release : task.isCanceled = true → ∀ v, s.Owned task.key t v → s.Canceling t task.status ∨ task.run.drops = true

end Views

section Moves

/-- A step of one task, which may send a request. -/
structure Move (s : State C K V) (t : ℕ) (task task' : LockTask C K V) (new : List (Message K V)) : Prop where
  fixed : task'.key = task.key ∧ task'.value = task.value ∧ task'.timeout = task.timeout ∧
    task'.preTask = task.preTask ∧ task'.isCanceled = task.isCanceled
  returned : task.pc = .returned true → task'.pc = .returned true
  version : task.status = .canceling ∨ task.status = .failed → task.pc = .returned true →
    task'.version = task.version
  status : task.status = .canceling ∨ task.status = .failed → task'.status = .canceling ∨ task'.status = .failed
  shape : Shape task'
  claim : ∀ v, s.claim t task = some v → s.claim t task' = some v
  sent : ∀ sender, task.Sent sender → task'.Sent sender
  awaits : ∀ sender request, (∀ u t', sender ≠ .cancel u t') → sender.task = t → s.answerTo sender = none →
    task.Sent sender → task.Awaits sender request → task'.Awaits sender request
  request : ∀ m ∈ new, m.sender.task = t ∧ (∀ u t', m.sender ≠ .cancel u t') ∧ task'.Sent m.sender ∧
    task'.Awaits m.sender m.request
  waits : Waits s t task → Waits { s with requests := s.requests ++ new } t task'
  release : task.isCanceled = true → (∃ v, s.claim t task = some v) →
    s.Canceling t task.status ∨ task.run.drops = true → s.Canceling t task'.status ∨ task'.run.drops = true

variable {s s' : State C K V} {t : ℕ} {task task' : LockTask C K V} {new : List (Message K V)}

omit [DecidableEq C] [DecidableEq K]

/-- What the views of a state look at. -/
structure SameViews (s s' : State C K V) : Prop where
  server : s'.server = s.server
  replies : s'.replies = s.replies
  unlocks : s'.unlocks = s.unlocks

theorem answerTo_congr (h : s'.replies = s.replies) : s'.answerTo = s.answerTo := by
  unfold State.answerTo
  rw [h]

theorem claim_congr (h : s'.replies = s.replies) : s'.claim = s.claim := by
  unfold State.claim State.runClaim
  rw [answerTo_congr h]

theorem owned_congr (h : s'.server = s.server) : s'.Owned = s.Owned := by
  unfold State.Owned
  rw [h]

theorem SameViews.answerTo (h : SameViews s s') : s'.answerTo = s.answerTo := answerTo_congr h.replies

theorem SameViews.claim (h : SameViews s s') : s'.claim = s.claim := claim_congr h.replies

theorem SameViews.owned (h : SameViews s s') : s'.Owned = s.Owned := owned_congr h.server

theorem SameViews.canceling (h : SameViews s s') : s'.Canceling = s.Canceling := by
  unfold State.Canceling
  rw [h.answerTo, h.unlocks]

theorem Received.congr (h : SameViews s s') {m : Message K V} (hm : Received s m task) : Received s' m task := by
  refine ⟨hm.sent, ?_, ?_⟩
  · rw [h.answerTo]
    exact hm.awaits
  · rw [h.answerTo, h.unlocks]
    exact hm.call

theorem Exchange.fits (h : Exchange s) (htask : s.tasks[t]? = some task) : TaskFits s t task :=
  ⟨fun hreply => h.refusals t task hreply htask, h.shape t task htask, h.own t task htask, h.waits t task htask,
    h.canceled t task htask, h.release t task htask⟩

theorem Exchange.of_fits (hsenders : (s.replies.map Prod.fst).Nodup)
    (hreplies : ∀ reply ∈ s.replies, (∃ m ∈ s.requests, m.sender = reply.1) ∧ Fits reply.1 reply.2)
    (hmessages : ∀ m ∈ s.requests, ∃ task, s.tasks[m.sender.task]? = some task ∧ Received s m task)
    (howners : ∀ key r, s.server.live Expiry.timedOut key = some r → r.owner < s.tasks.length)
    (hcalls : ∀ (u : ℕ) call, s.unlocks[u]? = some call → ∃ task, s.tasks[call.task]? = some task ∧
      CallOk s u call task)
    (honeCall : ∀ (u u' : ℕ) call call', s.unlocks[u]? = some call → s.unlocks[u']? = some call' →
      call.task = call'.task → u = u')
    (hfits : ∀ (t : ℕ) task, s.tasks[t]? = some task → TaskFits s t task) : Exchange s where
  senders := hsenders
  replies := hreplies
  refusals t task hreply htask := (hfits t task htask).refusals hreply
  messages := hmessages
  shape t task htask := (hfits t task htask).shape
  own t task htask := (hfits t task htask).own
  owners := howners
  waits t task htask := (hfits t task htask).waits
  canceled t task htask := (hfits t task htask).canceled
  calls := hcalls
  oneCall := honeCall
  release t task htask := (hfits t task htask).release

theorem Waits.mono (h : Waits s t task) (hrequests : s.requests ⊆ s'.requests) : Waits s' t task := by
  refine ⟨fun n hn => ?_, fun n hn => ?_⟩
  · obtain ⟨m, hm, hsender⟩ := h.extend n hn
    exact ⟨m, hrequests hm, hsender⟩
  · obtain ⟨m, hm, hsender⟩ := h.drop n hn
    exact ⟨m, hrequests hm, hsender⟩

theorem TaskFits.keep (h : TaskFits s t task) (hreplies : s'.replies = s.replies)
    (hrequests : s.requests ⊆ s'.requests) (howned : ∀ v, s'.Owned task.key t v → s.Owned task.key t v)
    (hcalls : (∃ call ∈ s.unlocks, call.task = t) → ∃ call ∈ s'.unlocks, call.task = t)
    (hcanceling : s.Canceling t task.status → s'.Canceling t task.status) : TaskFits s' t task where
  refusals hreply := h.refusals (hreplies ▸ hreply)
  shape := h.shape
  own v hv := by
    rw [claim_congr hreplies]
    exact h.own v (howned v hv)
  waits := h.waits.mono hrequests
  canceled hc := hcalls (h.canceled hc)
  release hc v hv := (h.release hc v (howned v hv)).imp_left hcanceling

theorem Exchange.replies_mono (h : Exchange s) (hreplies : s'.replies = s.replies)
    (hrequests : s.requests ⊆ s'.requests) :
    ∀ reply ∈ s'.replies, (∃ m ∈ s'.requests, m.sender = reply.1) ∧ Fits reply.1 reply.2 := by
  intro reply hreply
  obtain ⟨⟨m, hm, hsender⟩, hfits⟩ := h.replies reply (hreplies ▸ hreply)
  exact ⟨⟨m, hrequests hm, hsender⟩, hfits⟩

theorem CallOk.mono {u : ℕ} {call : UnlockCall C K} (h : CallOk s u call task)
    (hrequests : s.requests ⊆ s'.requests) : CallOk s' u call task := by
  refine ⟨h.returned, h.found, h.cancels, fun hpc => ?_⟩
  obtain ⟨m, hm, hsender⟩ := h.waits hpc
  exact ⟨m, hrequests hm, hsender⟩

/-- Nothing but the first step of a call of `unlock` comes before the cancellation. -/
theorem CallOk.isCanceled {u : ℕ} {call : UnlockCall C K} (h : CallOk s u call task) (hpc : call.pc ≠ .found) :
    task.isCanceled = true := by
  cases hc : task.isCanceled with
  | true => rfl
  | false => exact absurd (h.found.mpr hc) hpc

theorem Exchange.callOk (h : Exchange s) {u : ℕ} {call : UnlockCall C K} (hcall : s.unlocks[u]? = some call)
    (htask : s.tasks[call.task]? = some task) : CallOk s u call task := by
  obtain ⟨x, hx, hok⟩ := h.calls u call hcall
  cases hx.symm.trans htask
  exact hok

theorem Exchange.received (h : Exchange s) {m : Message K V} (hm : m ∈ s.requests)
    (htask : s.tasks[m.sender.task]? = some task) : Received s m task := by
  obtain ⟨x, hx, hrec⟩ := h.messages m hm
  cases hx.symm.trans htask
  exact hrec

theorem Exchange.move (h : Exchange s) (htask : s.tasks[t]? = some task) (hmove : Move s t task task' new)
    (hviews : SameViews s s') (htasks : s'.tasks = s.tasks.set t task')
    (hrequests : s'.requests = s.requests ++ new) : Exchange s' := by
  obtain ⟨hkey, hvalue, htimeout, hpreTask, hcanceled⟩ := hmove.fixed
  have hself : s'.tasks[t]? = some task' := htasks ▸ getElem?_set_same htask task'
  have hother {i : ℕ} (hi : i ≠ t) : s'.tasks[i]? = s.tasks[i]? := htasks ▸ getElem?_set_other hi
  have hmem : s.requests ⊆ s'.requests := hrequests ▸ subset_append_left _ _
  refine .of_fits (hviews.replies ▸ h.senders) (h.replies_mono hviews.replies hmem) (fun m hm => ?_) ?_
    (fun u call hcall => ?_) (hviews.unlocks ▸ h.oneCall) fun i x hx => ?_
  · rw [hrequests] at hm
    rcases mem_append.mp hm with hm | hm
    · by_cases hi : m.sender.task = t
      · have hrec := h.received hm (hi.symm ▸ htask)
        refine ⟨task', hi.symm ▸ hself, Received.congr hviews ⟨hmove.sent _ hrec.sent, fun hans => ?_, hrec.call⟩⟩
        by_cases hcancel : ∃ u t', m.sender = .cancel u t'
        · obtain ⟨u, t', hsender⟩ := hcancel
          obtain ⟨call, hcall, hcallTask, -, hwaiting⟩ := hrec.call u t' hsender
          obtain rfl : t' = t := by rw [← hi, hsender]; rfl
          have hok := h.callOk hcall (hcallTask.symm ▸ htask)
          have hstatus := hok.cancels (by rw [hwaiting hans]; rfl)
          have hreq := hrec.awaits hans
          rw [hsender] at hreq ⊢
          change m.request = .delete task'.key task'.version
          rw [hkey, hmove.version hstatus hok.returned]
          exact hreq
        · exact hmove.awaits _ _ (fun u t' he => hcancel ⟨u, t', he⟩) hi hans hrec.sent (hrec.awaits hans)
      · obtain ⟨x, hx, hrec⟩ := h.messages m hm
        exact ⟨x, (hother hi).trans hx, hrec.congr hviews⟩
    · obtain ⟨hi, hcancel, hsent, hawaits⟩ := hmove.request m hm
      exact ⟨task', hi.symm ▸ hself, hsent, fun _ => hawaits, fun u t' he => absurd he (hcancel u t')⟩
  · rw [hviews.server, htasks, length_set]
    exact h.owners
  · rw [hviews.unlocks] at hcall
    by_cases hi : call.task = t
    · have hok := (h.callOk hcall (hi.symm ▸ htask)).mono hmem
      refine ⟨task', hi.symm ▸ hself, hmove.returned hok.returned, ?_, fun hc => hmove.status (hok.cancels hc),
        hok.waits⟩
      rw [hcanceled]
      exact hok.found
    · obtain ⟨x, hx, hok⟩ := h.calls u call hcall
      exact ⟨x, (hother hi).trans hx, hok.mono hmem⟩
  · by_cases hi : i = t
    · subst hi
      cases hself.symm.trans hx
      have hold := h.fits htask
      refine ⟨fun hreply => ?_, hmove.shape, fun v hv => ?_, ?_, fun hc => ?_, fun hc v hv => ?_⟩
      · rw [htimeout, hpreTask]
        exact hold.refusals (hviews.replies ▸ hreply)
      · rw [hviews.claim]
        rw [hviews.owned, hkey] at hv
        exact hmove.claim v (hold.own v hv)
      · exact (hmove.waits hold.waits).mono (hrequests ▸ List.Subset.refl _)
      · rw [hviews.unlocks]
        exact hold.canceled (hcanceled ▸ hc)
      · rw [hviews.canceling]
        rw [hviews.owned, hkey] at hv
        rw [hcanceled] at hc
        exact hmove.release hc ⟨v, hold.own v hv⟩ (hold.release hc v hv)
    · refine (h.fits ((hother hi).symm.trans hx)).keep hviews.replies hmem ?_ ?_ ?_
      · rw [hviews.owned]
        exact fun _ => id
      · rw [hviews.unlocks]
        exact id
      · rw [hviews.canceling]
        exact id

theorem claim_of_run (hshape : Shape task) (hrun : task.run ≠ .idle) : s.claim t task = s.runClaim t task := by
  unfold State.claim
  rcases (hshape.run hrun).2 with hpc | hpc <;> rw [hpc]

theorem State.Canceling.of_ne {status status' : TaskStatus} (h : s.Canceling t status) (hne : status ≠ .suspending) :
    s.Canceling t status' := by
  obtain ⟨u, call, hcall, htask, ⟨-, hstatus⟩ | hpc⟩ := h
  · exact absurd hstatus hne
  · exact ⟨u, call, hcall, htask, .inr hpc⟩

theorem Move.run {run : RunPc} (status : TaskStatus) (attempt : ℕ) (hshape : Shape task)
    (hshape' : Shape { task with run := run, status := status, attempt := attempt }) (hidle : task.run ≠ .idle)
    (hidle' : run ≠ .idle)
    (hstatus : task.status = .canceling ∨ task.status = .failed → status = .canceling ∨ status = .failed)
    (hclaim : ∀ v, s.runClaim t task = some v →
      s.runClaim t { task with run := run, status := status, attempt := attempt } = some v)
    (hextend : task.attempt < attempt ∨
      attempt = task.attempt ∧ (task.run.extendSent = true → run.extendSent = true))
    (hdrop : task.run.dropSent = true → task.isCanceled = true → run.dropSent = true)
    (hanswered : (∀ n, task.run = .waiting n → s.answerTo (.extend t task.attempt) ≠ none) ∧
      ∀ n, task.run = .deleting n → s.answerTo (.drop t) ≠ none)
    (hwaits : (∀ n, run ≠ .waiting n) ∧ ∀ n, run ≠ .deleting n)
    (hrelease : task.isCanceled = true → ∀ v, s.runClaim t task = some v →
      (task.run.drops = true → run.drops = true) ∧
      (s.Canceling t task.status → s.Canceling t status ∨ run.drops = true)) :
    Move s t task { task with run := run, status := status, attempt := attempt } [] where
  fixed := ⟨rfl, rfl, rfl, rfl, rfl⟩
  returned := id
  version _ _ := rfl
  status := hstatus
  shape := hshape'
  claim v hv := by
    rw [claim_of_run hshape' hidle']
    exact hclaim v (claim_of_run hshape hidle ▸ hv)
  sent sender hsent := by
    cases sender with
    | lock i | cancel u i => exact hsent
    | drop i => exact ⟨hsent.1, hdrop hsent.2 hsent.1⟩
    | extend i a =>
      rcases hextend with hlt | ⟨rfl, hsame⟩
      · rcases hsent with hsent | ⟨rfl, -⟩
        · exact .inl (hsent.trans hlt)
        · exact .inl hlt
      · exact hsent.imp_right fun hsent => ⟨hsent.1, hsame hsent.2⟩
  awaits sender request hcancel hi hnone hsent hawaits := by
    cases sender with
    | lock i => exact hawaits
    | cancel u i => exact absurd rfl (hcancel u i)
    | drop i =>
      obtain rfl : i = t := hi
      obtain ⟨⟨n, hn⟩, -⟩ := hawaits
      exact absurd hnone (hanswered.2 n hn)
    | extend i a =>
      obtain rfl : i = t := hi
      obtain ⟨rfl, ⟨n, hn⟩, -⟩ := hawaits
      exact absurd hnone (hanswered.1 n hn)
  request := nofun
  waits _ := ⟨fun n hn => absurd hn (hwaits.1 n), fun n hn => absurd hn (hwaits.2 n)⟩
  release hc := by
    rintro ⟨v, hv⟩ hpending
    obtain ⟨hdrops, hcanceling⟩ := hrelease hc v (claim_of_run hshape hidle ▸ hv)
    rcases hpending with hpending | hpending
    · exact hcanceling hpending
    · exact .inr (hdrops hpending)

theorem Shape.setRun {run : RunPc} {status : TaskStatus} {attempt : ℕ} (h : Shape task) (hidle : task.run ≠ .idle)
    (hretries : run ≠ .extending 0 ∧ ∀ n, run ≠ .retrying n)
    (hdropping : ∀ n, run = .dropping n → task.isCanceled = true) (hactive : run.active = true → status = .running)
    (hrunning : status = .running → task.isCanceled = false → run.active = true)
    (hcanceling : status = .canceling → task.isCanceled = true) (hfailed : status = .failed → run = .finished) :
    Shape { task with run := run, status := status, attempt := attempt } :=
  { h with
    run := fun _ => h.run hidle
    retries := hretries
    active := hactive
    running := hrunning
    canceling := hcanceling
    failed := hfailed
    dropping := hdropping }

/-- Outside of an attempt the status is running only where a cancelled task has left it so. -/
theorem Shape.not_running (h : Shape task) (hactive : task.run.active = false) (hrunning : task.status = .running) :
    task.isCanceled = true := by
  cases hc : task.isCanceled with
  | true => rfl
  | false => exact absurd (h.running hrunning hc) (by simp [hactive])

theorem Shape.inactive (h : Shape task) (hstatus : task.status ≠ .running) : task.run.active = false := by
  cases ha : task.run.active with
  | false => rfl
  | true => exact absurd (h.active ha) hstatus

theorem Shape.not_failed (h : Shape task) (hrun : task.run ≠ .finished) : task.status ≠ .failed :=
  fun hf => hrun (h.failed hf)

theorem Move.pass {run : RunPc} (hshape : Shape task) (hrest : task.run.resting = true)
    (hrest' : run.resting = true ∨ run = .finished)
    (hdropping : ∀ n, run = .dropping n → task.isCanceled = true)
    (hdrops : task.isCanceled = true → task.run.drops = true → run.drops = true)
    (hclaim : ∀ v, s.runClaim t task = some v → s.runClaim t { task with run := run } = some v)
    (hdrop : task.run.dropSent = true → task.isCanceled = true → run.dropSent = true) :
    Move s t task { task with run := run } [] := by
  have hactive {r : RunPc} (hr : r.resting = true ∨ r = .finished) : r.active = false ∧ r.extendSent = false ∧
      r ≠ .idle ∧ r ≠ .extending 0 ∧ (∀ n, r ≠ .retrying n) ∧ (∀ n, r ≠ .waiting n) ∧ ∀ n, r ≠ .deleting n := by
    cases r <;> simp_all [RunPc.resting, RunPc.active, RunPc.extendSent]
    rintro rfl
    cases hr
  obtain ⟨hinactive, hnotSent, hidle, -, -, hwaiting, hdeleting⟩ := hactive (.inl hrest)
  obtain ⟨hinactive', -, hidle', hextending', hretrying', hwaiting', hdeleting'⟩ := hactive hrest'
  have hfinished : task.run ≠ .finished := by
    intro hrun
    simp [hrun, RunPc.resting] at hrest
  refine Move.run task.status task.attempt hshape ?_ hidle hidle' id hclaim
    (.inr ⟨rfl, by simp [hnotSent]⟩) hdrop ⟨fun n hn => absurd hn (hwaiting n), fun n hn => absurd hn (hdeleting n)⟩
    ⟨hwaiting', hdeleting'⟩ fun hc _ _ => ⟨hdrops hc, .inl⟩
  refine hshape.setRun hidle ⟨hextending', hretrying'⟩ hdropping (by simp [hinactive'])
    (fun hr hc => ?_) hshape.canceling
    fun hf => absurd hf (hshape.not_failed hfinished)
  exact absurd (hshape.not_running hinactive hr) (by simp [hc])

end Moves

section RunSteps

variable {s s' : State C K V} {t : ℕ} {task : LockTask C K V}

omit [DecidableEq C] [DecidableEq K]

theorem Exchange.setTask (h : Exchange s) (htask : s.tasks[t]? = some task) {task' : LockTask C K V}
    (hmove : Move s t task task' []) : Exchange (s.setTask t task') :=
  h.move htask hmove ⟨rfl, rfl, rfl⟩ rfl (append_nil _).symm

theorem Exchange.answerTo_eq_none (h : Exchange s) {sender : Sender} (htask : s.tasks[sender.task]? = some task)
    (hsent : ¬ task.Sent sender) : s.answerTo sender = none := by
  unfold State.answerTo
  rw [Option.map_eq_none_iff, find?_eq_none]
  intro reply hreply heq
  obtain ⟨⟨m, hm, hsender⟩, -⟩ := h.replies reply hreply
  obtain ⟨x, hx, hrec⟩ := h.messages m hm
  have hm : m.sender = sender := hsender.trans (by simpa using heq)
  obtain rfl : x = task := Option.some.inj (hx.symm.trans (hm ▸ htask))
  exact hsent (hm ▸ hrec.sent)

theorem Exchange.send (h : Exchange s) (htask : s.tasks[t]? = some task) {sender : Sender} {request : Request K V}
    {run : RunPc} (hrun : ∃ n, task.run = .sending n ∧ run = .waiting n ∧ sender = .extend t task.attempt ∨
      task.run = .dropping n ∧ run = .deleting n ∧ sender = .drop t)
    (hawaits : LockTask.Awaits { task with run := run } sender request) :
    Exchange ((s.send sender request).setTask t { task with run := run }) := by
  have hshape := h.shape t task htask
  have hclaim : s.runClaim t { task with run := run } = s.runClaim t task := by
    obtain ⟨n, ⟨hrun, rfl, -⟩ | ⟨hrun, rfl, -⟩⟩ := hrun
    · have hnone : s.answerTo (.extend t task.attempt) = none :=
        h.answerTo_eq_none htask (by simp [LockTask.Sent, hrun, RunPc.extendSent])
      simp [State.runClaim, hrun, hnone]
    · have hnone : s.answerTo (.drop t) = none :=
        h.answerTo_eq_none htask (by simp [LockTask.Sent, hrun, RunPc.dropSent])
      simp [State.runClaim, hrun, hnone]
  have hpc : task.run ≠ .idle ∧ task.run ≠ .finished ∧ run ≠ .idle ∧ run.active = task.run.active ∧
      run.drops = true ∧ task.run.extendSent = false ∧ task.run.dropSent = false := by
    obtain ⟨n, ⟨hrun, rfl, -⟩ | ⟨hrun, rfl, -⟩⟩ := hrun <;>
      simp [hrun, RunPc.active, RunPc.drops, RunPc.extendSent, RunPc.dropSent]
  obtain ⟨hidle, hfinished, hidle', hactive, hdrops, hextendSent, hdropSent⟩ := hpc
  have hshape' : Shape { task with run := run } := by
    refine hshape.setRun hidle ?_ ?_ (hactive ▸ hshape.active) (hactive ▸ hshape.running) hshape.canceling
      fun hf => absurd hf (hshape.not_failed hfinished) <;>
        obtain ⟨n, ⟨-, rfl, -⟩ | ⟨-, rfl, -⟩⟩ := hrun <;> simp
  have hmove : Move s t task { task with run := run } [⟨sender, request⟩] := by
    refine ⟨⟨rfl, rfl, rfl, rfl, rfl⟩, id, fun _ _ => rfl, id, hshape', fun v hv => ?_, fun x hx => ?_,
      fun x req hcancel hi hnone hx hawaits => ?_, fun m hm => ?_, fun hw => ?_, fun _ _ _ => .inr hdrops⟩
    · rwa [claim_of_run hshape' hidle', hclaim, ← claim_of_run hshape hidle]
    · cases x with
      | lock i | cancel u i => exact hx
      | extend i a => exact hx.imp_right fun hx => absurd hx.2 (by simp [hextendSent])
      | drop i => exact absurd hx.2 (by simp [hdropSent])
    · cases x with
      | lock i | cancel u i => exact hawaits
      | extend i a =>
        obtain ⟨-, ⟨n, hn⟩, -⟩ := hawaits
        simp [hn, RunPc.extendSent] at hextendSent
      | drop i =>
        obtain ⟨⟨n, hn⟩, -⟩ := hawaits
        simp [hn, RunPc.dropSent] at hdropSent
    · obtain rfl := mem_singleton.mp hm
      obtain ⟨n, ⟨-, rfl, rfl⟩ | ⟨hrun, rfl, rfl⟩⟩ := hrun
      · exact ⟨rfl, nofun, .inr ⟨rfl, rfl⟩, hawaits⟩
      · exact ⟨rfl, nofun, ⟨hshape.dropping n hrun, rfl⟩, hawaits⟩
    · obtain ⟨n, ⟨-, rfl, rfl⟩ | ⟨-, rfl, rfl⟩⟩ := hrun
      · exact ⟨fun _ _ => ⟨_, mem_append_right _ mem_cons_self, rfl⟩, nofun⟩
      · exact ⟨nofun, fun _ _ => ⟨_, mem_append_right _ mem_cons_self, rfl⟩⟩
  exact h.move htask hmove ⟨rfl, rfl, rfl⟩ rfl rfl

attribute [local simp] RunPc.active RunPc.extendSent RunPc.dropSent RunPc.drops RunPc.resting State.runClaim

section Attempts

variable {n : ℕ}

/-- The attempt begins. -/
theorem Move.attempt (hshape : Shape task) (hrun : task.run = .extending (n + 1)) (hstatus : task.status = .suspending)
    (hguard : ∀ call ∈ s.unlocks, call.task = t → call.pc ≠ .canceled) :
    Move s t task { task with status := .running, run := .checking (n + 1) } [] := by
  refine .run _ task.attempt hshape ?_ ?_ ?_ ?_ ?_ ?_ ?_ ?_ ?_ ?_
  · exact hshape.setRun (by simp [hrun]) (by simp) nofun (fun _ => rfl) (fun _ _ => rfl) nofun nofun
  rotate_right
  · intro _ _ _
    refine ⟨by simp [hrun], fun hcanceling => ?_⟩
    obtain ⟨u, call, hcall, hcallTask, ⟨hpc, -⟩ | hpc⟩ := hcanceling
    · exact absurd hpc (hguard call (mem_of_getElem? hcall) hcallTask)
    · exact .inl ⟨u, call, hcall, hcallTask, .inr hpc⟩
  all_goals simp [hrun, hstatus]

/-- A cancelled task sends nothing. -/
theorem Move.check (hshape : Shape task) (hrun : task.run = .checking n) :
    Move s t task
      { task with run := if task.isCanceled then .unwinding (RETRY_TIMES - n) true else .sending n } [] := by
  have hstatus := hshape.active (by simp [hrun])
  refine .run task.status task.attempt hshape ?_ ?_ ?_ ?_ ?_ ?_ ?_ ?_ ?_ ?_
  · refine hshape.setRun (by simp [hrun]) ?_ ?_ (fun _ => hstatus) (fun _ hc => by simp [hc])
      hshape.canceling (by simp [hstatus]) <;> split_ifs <;> simp
  rotate_right
  · exact fun hc _ _ => ⟨by simp [hrun], .inl⟩
  all_goals
    by_cases hc : task.isCanceled = true <;>
      simp [hrun, hc]

theorem Move.answered {v : ℕ} (hshape : Shape task) (hrun : task.run = .answered n v) :
    Move s t task { task with version := v, run := .settling n true } [] := by
  have hstatus := hshape.active (by simp [hrun])
  have hidle : task.run ≠ .idle := by simp [hrun]
  have hsettling : Shape { task with run := .settling n true } :=
    hshape.setRun hidle (by simp) nofun (fun _ => hstatus) (fun _ _ => rfl) (by simp [hstatus]) (by simp [hstatus])
  have hshape' : Shape { task with version := v, run := .settling n true } := { hsettling with }
  refine ⟨⟨rfl, rfl, rfl, rfl, rfl⟩, id, by simp [hstatus], id, hshape', fun w hw => ?_, fun x hx => ?_,
    fun x req hcancel hi hnone hx hawaits => ?_, nofun, fun _ => ⟨nofun, nofun⟩, fun _ _ _ => .inr rfl⟩
  · rw [claim_of_run hshape hidle] at hw
    rw [claim_of_run hshape' (by simp)]
    simpa [hrun] using hw
  · cases x with
    | lock i | cancel u i => exact hx
    | extend i a => exact hx.imp_right fun hx => ⟨hx.1, rfl⟩
    | drop i => exact absurd hx.2 (by simp [hrun])
  · cases x with
    | lock i => exact hawaits
    | cancel u i => exact absurd rfl (hcancel u i)
    | extend i a =>
      obtain ⟨-, ⟨m, hm⟩, -⟩ := hawaits
      simp [hrun] at hm
    | drop i =>
      obtain ⟨⟨m, hm⟩, -⟩ := hawaits
      simp [hrun] at hm

theorem Move.settle {extended : Bool} (hshape : Shape task) (hrun : task.run = .settling n extended) :
    Move s t task { task with
      status := .suspending
      run := if extended then .rechecking n else .unwinding (RETRY_TIMES - n) false
      attempt := task.attempt + 1 } [] := by
  have hstatus := hshape.active (by simp [hrun])
  refine .run .suspending (task.attempt + 1) hshape ?_ ?_ ?_ ?_ ?_ ?_ ?_ ?_ ?_ ?_
  · refine hshape.setRun (by simp [hrun]) ?_ ?_ ?_ nofun nofun nofun <;>
      cases extended <;> simp
  rotate_right
  · intro _ v hv
    refine ⟨?_, fun hcanceling => .inl (hcanceling.of_ne (by simp [hstatus]))⟩
    cases extended with
    | false => simp [hrun] at hv
    | true => simp
  all_goals
    cases extended <;> simp [hrun, hstatus]

/-- Each of the nested calls ends with the same comparison of the status. -/
theorem Move.unwind {result : Bool} (hshape : Shape task) (hrun : task.run = .unwinding (n + 1) result) :
    Move s t task { task with
      status := if task.status = .running then .suspending else task.status, run := .unwinding n result } [] := by
  have hfailed := hshape.not_failed (by simp [hrun])
  refine .run _ task.attempt hshape ?_ ?_ ?_ ?_ ?_ ?_ ?_ ?_ ?_ ?_
  · refine hshape.setRun (by simp [hrun]) (by simp) nofun (by simp) ?_ ?_ ?_
    · split_ifs with hstatus
      · nofun
      · exact fun hr => absurd hr hstatus
    · split_ifs
      · nofun
      · exact hshape.canceling
    · split_ifs
      · nofun
      · exact fun hf => absurd hf hfailed
  rotate_right
  · intro _ _ _
    refine ⟨by simp [hrun], fun hcanceling => .inl ?_⟩
    split_ifs with hstatus
    · exact hcanceling.of_ne (by simp [hstatus])
    · exact hcanceling
  case refine_4 =>
    rintro (hstatus | hstatus) <;> simp [hstatus]
  all_goals cases result <;> simp [hrun]

end Attempts

theorem Exchange.runStep (h : Exchange s) (htask : s.tasks[t]? = some task)
    (hguard : task.run.isExtending = true → ∀ call ∈ s.unlocks, call.task = t → call.pc ≠ .canceled)
    (hstep : LockServiceImpl.runStep s t task = some s') : Exchange s' := by
  have hshape := h.shape t task htask
  unfold LockServiceImpl.runStep at hstep
  cases hrun : task.run with
  | idle | waiting n | deleting n | finished => simp [hrun] at hstep
  | loop =>
    have hfailed := hshape.not_failed (by simp [hrun])
    simp only [hrun, Option.some.injEq] at hstep
    subst hstep
    by_cases hc : task.isCanceled = true <;> refine h.setTask htask (.pass hshape ?_ ?_ ?_ ?_ ?_ ?_) <;>
      simp [hrun, hc, hfailed]
  | sleeping =>
    simp only [hrun, Option.some.injEq] at hstep
    subst hstep
    refine h.setTask htask (.pass hshape ?_ ?_ ?_ ?_ ?_ ?_) <;>
      simp [hrun, RETRY_TIMES]
  | extending n =>
    cases n with
    | zero => exact absurd hrun hshape.retries.1
    | succ n =>
      simp only [hrun] at hstep
      split_ifs at hstep with hstatus
      · cases hstep
        exact h.setTask htask (.attempt hshape hrun hstatus (hguard (by simp [hrun, RunPc.isExtending])))
      · cases hstep
        refine h.setTask htask (.pass hshape ?_ ?_ ?_ ?_ ?_ ?_) <;>
          simp [hrun]
  | checking n =>
    simp only [hrun, Option.some.injEq] at hstep
    subst hstep
    exact h.setTask htask (.check hshape hrun)
  | sending n =>
    simp only [hrun, Option.some.injEq] at hstep
    subst hstep
    exact h.send htask ⟨n, .inl ⟨hrun, rfl, rfl⟩⟩ ⟨rfl, ⟨n, rfl⟩, rfl⟩
  | answered n v =>
    simp only [hrun, Option.some.injEq] at hstep
    subst hstep
    exact h.setTask htask (.answered hshape hrun)
  | retrying n => exact absurd hrun (hshape.retries.2 n)
  | settling n extended =>
    have hstatus := hshape.active (by simp [hrun])
    simp only [hrun, LockTask.compareAndSet, hstatus, if_true, Option.some.injEq] at hstep
    subst hstep
    exact h.setTask htask (.settle hshape hrun)
  | rechecking n =>
    simp only [hrun, Option.some.injEq] at hstep
    subst hstep
    by_cases hc : task.isCanceled = true <;> refine h.setTask htask (.pass hshape ?_ ?_ ?_ ?_ ?_ ?_) <;>
      simp [hrun, hc]
  | dropping n =>
    simp only [hrun, Option.some.injEq] at hstep
    subst hstep
    exact h.send htask ⟨n, .inr ⟨hrun, rfl, rfl⟩⟩ ⟨⟨n, rfl⟩, rfl⟩
  | unwinding depth result =>
    cases depth with
    | zero =>
      simp only [hrun, Option.some.injEq] at hstep
      subst hstep
      cases result <;> refine h.setTask htask (.pass hshape ?_ ?_ ?_ ?_ ?_ ?_) <;>
        simp [hrun]
    | succ depth =>
      simp only [hrun, LockTask.compareAndSet_eq, Option.some.injEq] at hstep
      subst hstep
      exact h.setTask htask (.unwind hshape hrun)
  | failing =>
    simp only [hrun, Option.some.injEq] at hstep
    subst hstep
    refine h.setTask htask (.run _ task.attempt hshape ?_ ?_ ?_ ?_ ?_ ?_ ?_ ?_ ?_ ?_)
    · exact hshape.setRun (by simp [hrun]) (by simp) nofun (by simp) nofun nofun fun _ => rfl
    all_goals simp [hrun]

theorem Exchange.answerTo_of_mem (h : Exchange s) {sender : Sender} {answer : Answer}
    (hreply : (sender, answer) ∈ s.replies) : s.answerTo sender = some answer := by
  unfold State.answerTo
  cases hfind : s.replies.find? fun reply => reply.1 = sender with
  | none => exact absurd (decide_eq_true rfl) (find?_eq_none.mp hfind _ hreply)
  | some reply =>
    have hsender : reply.1 = sender := by simpa using find?_some hfind
    have hsame : reply = (sender, answer) :=
      inj_on_of_nodup_map h.senders (mem_of_find?_eq_some hfind) hreply hsender
    rw [hsame]
    rfl

theorem Exchange.sent_of_mem (h : Exchange s) {sender : Sender} {answer : Answer}
    (hreply : (sender, answer) ∈ s.replies) (htask : s.tasks[sender.task]? = some task) : task.Sent sender := by
  by_contra hsent
  cases (h.answerTo_eq_none htask hsent).symm.trans (h.answerTo_of_mem hreply)

theorem Exchange.runReply (h : Exchange s) (htask : s.tasks[t]? = some task) {sender : Sender} {answer : Answer}
    (hreply : (sender, answer) ∈ s.replies) (hsender : sender = .extend t task.attempt ∨ sender = .drop t)
    (hstep : LockServiceImpl.runReply s t task answer = some s') : Exchange s' := by
  have hshape := h.shape t task htask
  have hfits := (h.replies _ hreply).2
  have hanswer := h.answerTo_of_mem hreply
  have hsent : task.Sent sender := h.sent_of_mem hreply (by rcases hsender with rfl | rfl <;> exact htask)
  unfold LockServiceImpl.runReply at hstep
  cases hrun : task.run with
  | waiting n =>
    have hstatus := hshape.active (by simp [hrun])
    obtain rfl : sender = .extend t task.attempt := by
      refine hsender.resolve_right fun hdrop => ?_
      rw [hdrop] at hsent
      simp [LockTask.Sent, hrun] at hsent
    rcases hfits with rfl | ⟨v, rfl⟩ <;> simp only [hrun, Option.some.injEq] at hstep <;> subst hstep
    all_goals
      refine h.setTask htask (.run task.status task.attempt hshape ?_ ?_ ?_ ?_ ?_ ?_ ?_ ?_ ?_ ?_)
      · exact hshape.setRun (by simp [hrun]) (by simp) nofun (fun _ => hstatus) (fun _ _ => rfl) hshape.canceling
          (by simp [hstatus])
      all_goals
        simp [hrun, hstatus, hanswer, version?]
  | deleting n =>
    have hfailed := hshape.not_failed (by simp [hrun])
    obtain rfl : sender = .drop t := by
      refine hsender.resolve_left fun hextend => ?_
      rw [hextend] at hsent
      simp [LockTask.Sent, hrun] at hsent
    have hunwinding (result : Bool) :
        Exchange (s.setTask t { task with run := .unwinding (RETRY_TIMES - n) result }) := by
      refine h.setTask htask (.run task.status task.attempt hshape ?_ ?_ ?_ ?_ ?_ ?_ ?_ ?_ ?_ ?_)
      · exact hshape.setRun (by simp [hrun]) (by simp) nofun (by simp)
          (fun hr hc => absurd (hshape.not_running (by simp [hrun]) hr) (by simp [hc]))
          hshape.canceling (by simp [hfailed])
      all_goals simp [hrun, hanswer]
    rcases hfits with rfl | rfl
    · simp only [hrun, Option.some.injEq] at hstep
      exact hstep ▸ hunwinding true
    · simp only [hrun, Option.some.injEq] at hstep
      exact hstep ▸ hunwinding false
  | _ => simp [hrun] at hstep

end RunSteps

end Goblin.Client.LockServiceImpl
