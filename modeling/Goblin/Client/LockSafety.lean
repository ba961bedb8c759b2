import Goblin.Client.LockExchange

/-! Who may delete the key of a lock: every version is known by the task that has written it, and a
delete that carries the version of a cancelled task takes the key from nobody else. -/
namespace Goblin.Client.LockServiceImpl

open Lib Lib.Lease List Option

variable {C K V : Type} [DecidableEq C] [DecidableEq K]

/-- The task has been cancelled by a call of `unlock`. -/
def Revoked (s : State C K V) (t : ℕ) : Prop :=
  ∃ task, s.tasks[t]? = some task ∧ task.isCanceled = true

/-- The put has been answered and the version is set. -/
def LockPc.Locked : LockPc → Prop
  | .locked | .leaving | .returned true => True
  | _ => False

structure TaskOk (author : ℕ → Option (K × ℕ)) (t : ℕ) (task : LockTask C K V) : Prop where
  version : task.version ≠ 0 → author task.version = some (task.key, t)
  answered : ∀ v, task.pc = .answered v → author v = some (task.key, t)
  locked : task.pc.Locked → task.version ≠ 0
  running : task.run ≠ .idle → task.version ≠ 0
  extended : ∀ n v, task.run = .answered n v → author v = some (task.key, t)
  canceled : task.isCanceled = true → task.pc = .returned true
  dropping : ∀ n, task.run = .dropping n → task.isCanceled = true

/-- What of a task never changes back. -/
structure LockTask.Le (task task' : LockTask C K V) : Prop where
  key : task'.key = task.key
  isCanceled : task.isCanceled = true → task'.isCanceled = true
  returned : task.pc = .returned true → task'.pc = .returned true

def MessageOk (s : State C K V) (m : Message K V) : Prop :=
  ∃ task, s.tasks[m.sender.task]? = some task ∧
    match m.request with
    | .put key _ _ => task.key = key
    | .cas key _ comparedVersion _ =>
      task.key = key ∧ s.server.author comparedVersion = some (key, m.sender.task)
    | .delete key version =>
      version ≠ 0 ∧ s.server.author version = some (key, m.sender.task) ∧ task.isCanceled = true

def ReplyOk (s : State C K V) (reply : Sender × Answer) : Prop :=
  ∀ v, reply.2 = .written v → ∃ task, s.tasks[reply.1.task]? = some task ∧
    s.server.author v = some (task.key, reply.1.task)

def UnlockOk (s : State C K V) (call : UnlockCall C K) : Prop :=
  ∃ task, s.tasks[call.task]? = some task ∧ task.pc = .returned true ∧
    (call.pc ≠ .found → task.isCanceled = true)

structure Inv (s : State C K V) : Prop where
  server : s.server.Inv Expiry.timedOut (Revoked s)
  tasks : ∀ (t : ℕ) task, s.tasks[t]? = some task → TaskOk s.server.author t task
  messages : ∀ m ∈ s.requests, MessageOk s m
  replies : ∀ reply ∈ s.replies, ReplyOk s reply
  unlocks : ∀ call ∈ s.unlocks, UnlockOk s call

/-- The tasks of `s` are still there in `s'`, and so are the authors of the versions. -/
structure Later (s s' : State C K V) : Prop where
  tasks : ∀ (t : ℕ) task, s.tasks[t]? = some task → ∃ task', s'.tasks[t]? = some task' ∧ task.Le task'
  author : ∀ n a, s.server.author n = some a → s'.server.author n = some a

section Later

variable {s s' : State C K V}

omit [DecidableEq C] [DecidableEq K]

theorem LockTask.Le.refl (task : LockTask C K V) : task.Le task := ⟨rfl, id, id⟩

theorem Later.revoked (h : Later s s') {t : ℕ} (ht : Revoked s t) : Revoked s' t := by
  obtain ⟨task, htask, hc⟩ := ht
  obtain ⟨task', htask', hle⟩ := h.tasks t task htask
  exact ⟨task', htask', hle.isCanceled hc⟩

theorem Later.messageOk (h : Later s s') {m : Message K V} (hm : MessageOk s m) : MessageOk s' m := by
  obtain ⟨sender, request⟩ := m
  obtain ⟨task, htask, hm⟩ := hm
  obtain ⟨task', htask', hle⟩ := h.tasks _ task htask
  refine ⟨task', htask', ?_⟩
  cases request with
  | put key value ttl => exact hle.key.trans hm
  | cas key value comparedVersion ttl => exact ⟨hle.key.trans hm.1, h.author _ _ hm.2⟩
  | delete key version => exact ⟨hm.1, h.author _ _ hm.2.1, hle.isCanceled hm.2.2⟩

theorem Later.replyOk (h : Later s s') {reply : Sender × Answer} (hr : ReplyOk s reply) :
    ReplyOk s' reply := by
  intro v hv
  obtain ⟨task, htask, ha⟩ := hr v hv
  obtain ⟨task', htask', hle⟩ := h.tasks _ task htask
  exact ⟨task', htask', hle.key.symm ▸ h.author _ _ ha⟩

theorem Later.unlockOk (h : Later s s') {call : UnlockCall C K} (hu : UnlockOk s call) :
    UnlockOk s' call := by
  obtain ⟨task, htask, hpc, hc⟩ := hu
  obtain ⟨task', htask', hle⟩ := h.tasks _ task htask
  exact ⟨task', htask', hle.returned hpc, fun hne => hle.isCanceled (hc hne)⟩

theorem TaskOk.mono {author author' : ℕ → Option (K × ℕ)} {t : ℕ} {task : LockTask C K V}
    (h : TaskOk author t task) (ha : ∀ n a, author n = some a → author' n = some a) :
    TaskOk author' t task :=
  { h with
    version := fun hv => ha _ _ (h.version hv)
    answered := fun v hv => ha _ _ (h.answered v hv)
    extended := fun n v hv => ha _ _ (h.extended n v hv) }

/-- The server and the lists of messages, replies and calls are those of `s`. -/
theorem Inv.later (h : Inv s) (hl : Later s s') (hserver : s'.server.Inv Expiry.timedOut (Revoked s'))
    (htasks : ∀ t task, s'.tasks[t]? = some task → TaskOk s'.server.author t task)
    (hmessages : ∀ m ∈ s'.requests, m ∈ s.requests ∨ MessageOk s' m)
    (hreplies : ∀ r ∈ s'.replies, r ∈ s.replies ∨ ReplyOk s' r)
    (hunlocks : ∀ u ∈ s'.unlocks, u ∈ s.unlocks ∨ UnlockOk s' u) : Inv s' where
  server := hserver
  tasks := htasks
  messages m hm := (hmessages m hm).elim (fun hm => hl.messageOk (h.messages m hm)) id
  replies r hr := (hreplies r hr).elim (fun hr => hl.replyOk (h.replies r hr)) id
  unlocks u hu := (hunlocks u hu).elim (fun hu => hl.unlockOk (h.unlocks u hu)) id

theorem later_setTask {t : ℕ} {task task' : LockTask C K V} (htask : s.tasks[t]? = some task)
    (hle : task.Le task') : Later s (s.setTask t task') := by
  refine ⟨fun i x hx => ?_, fun _ _ => id⟩
  by_cases hi : i = t
  · subst hi
    cases htask.symm.trans hx
    exact ⟨task', getElem?_set_same htask task', hle⟩
  · exact ⟨x, (getElem?_set_other hi).trans hx, .refl x⟩

theorem Inv.setTask (h : Inv s) {t : ℕ} {task task' : LockTask C K V} (htask : s.tasks[t]? = some task)
    (hle : task.Le task') (hok : TaskOk s.server.author t task') : Inv (s.setTask t task') := by
  have hl := later_setTask htask hle
  refine h.later hl (h.server.mono fun o => hl.revoked) (fun i x hx => ?_) (fun _ => .inl) (fun _ => .inl)
    (fun _ => .inl)
  by_cases hi : i = t
  · subst hi
    cases (getElem?_set_same htask task').symm.trans hx
    exact hok
  · exact h.tasks i x ((getElem?_set_other hi).symm.trans hx)

theorem Inv.send (h : Inv s) (sender : Sender) (request : Request K V)
    (hm : MessageOk s ⟨sender, request⟩) : Inv (s.send sender request) := by
  refine h.later ⟨fun t task ht => ⟨task, ht, .refl task⟩, fun _ _ => id⟩ h.server h.tasks (fun m hm' => ?_)
    (fun _ => .inl) (fun _ => .inl)
  rcases mem_append.mp hm' with hm' | hm'
  · exact .inl hm'
  · cases mem_singleton.mp hm'
    exact .inr hm

theorem Inv.setUnlock (h : Inv s) (u : ℕ) {call : UnlockCall C K} (hcall : UnlockOk s call) :
    Inv (s.setUnlock u call) := by
  refine h.later ⟨fun t task ht => ⟨task, ht, .refl task⟩, fun _ _ => id⟩ h.server h.tasks (fun _ => .inl)
    (fun _ => .inl) (fun x hx => ?_)
  rcases mem_or_eq_of_mem_set hx with hx | rfl
  · exact .inl hx
  · exact .inr hcall

end Later

theorem Inv.setMap {s : State C K V} (h : Inv s) (c : C) (k : K) (t : Option ℕ) : Inv (s.setMap c k t) :=
  { h with }

section Steps

variable {s s' : State C K V} {t : ℕ} {task : LockTask C K V}

omit [DecidableEq C] [DecidableEq K]

theorem Inv.version_ne_zero (h : Inv s) {v : ℕ} {a : K × ℕ} (ha : s.server.author v = some a) : v ≠ 0 :=
  Nat.pos_iff_ne_zero.mp (h.server.author_le v a ha).1

theorem Inv.setPc (h : Inv s) (htask : s.tasks[t]? = some task) {pc : LockPc}
    (hpc : task.pc ≠ .returned true) (hanswered : ∀ v, pc = .answered v → s.server.author v = some (task.key, t))
    (hlocked : pc.Locked → task.version ≠ 0) : Inv (s.setTask t { task with pc := pc }) := by
  have hok := h.tasks t task htask
  refine h.setTask htask ⟨rfl, id, fun hr => absurd hr hpc⟩
    { hok with answered := hanswered, locked := hlocked, canceled := ?_ }
  exact fun hc => absurd (hok.canceled hc) hpc

theorem Inv.setRun (h : Inv s) (htask : s.tasks[t]? = some task) (hrun : task.run ≠ .idle) {run : RunPc}
    {status : TaskStatus} {attempt : ℕ}
    (hextended : ∀ n v, run = .answered n v → s.server.author v = some (task.key, t))
    (hdropping : ∀ n, run = .dropping n → task.isCanceled = true) :
    Inv (s.setTask t { task with run := run, status := status, attempt := attempt }) := by
  have hok := h.tasks t task htask
  exact h.setTask htask ⟨rfl, id, id⟩
    { hok with running := fun _ => hok.running hrun, extended := hextended, dropping := hdropping }

theorem Inv.lockStep [DecidableEq C] [DecidableEq K] (h : Inv s) (htask : s.tasks[t]? = some task)
    (hstep : LockServiceImpl.lockStep s t task = some s') : Inv s' := by
  have hok := h.tasks t task htask
  unfold LockServiceImpl.lockStep at hstep
  cases hpc : task.pc with
  | registered =>
    have hne : task.pc ≠ .returned true := by simp [hpc]
    simp only [hpc] at hstep
    split at hstep
    · cases hstep
      exact h.setPc htask hne nofun False.elim
    split_ifs at hstep <;> cases hstep <;> exact h.setPc htask hne nofun False.elim
  | replacing | thrown =>
    simp only [hpc] at hstep
    cases hstep
    exact (h.setMap _ _ _).setPc htask (by simp [hpc]) nofun False.elim
  | sending =>
    simp only [hpc] at hstep
    cases hstep
    have hsend := h.send (.lock t) (.put task.key task.value
      (task.timeout.getD DEFAULT_LOCK_TTL_IN_SEC)) ⟨task, htask, rfl⟩
    exact hsend.setPc htask (by simp [hpc]) nofun False.elim
  | refused =>
    simp only [hpc] at hstep
    cases hstep
    split_ifs
    · exact (h.setMap _ _ _).setPc htask (by simp [hpc]) nofun False.elim
    · exact h.setPc htask (by simp [hpc]) nofun False.elim
  | answered v =>
    simp only [hpc] at hstep
    cases hstep
    have ha := hok.answered v hpc
    have hv := h.version_ne_zero ha
    refine h.setTask htask ⟨rfl, id, by simp [hpc]⟩ ⟨fun _ => ha, nofun, fun _ => hv, fun _ => hv, hok.extended,
      fun hc => ?_, hok.dropping⟩
    exact absurd (hok.canceled hc) (by simp [hpc])
  | locked =>
    have hne : task.pc ≠ .returned true := by simp [hpc]
    have hv : task.version ≠ 0 := hok.locked (by simp [hpc, LockPc.Locked])
    simp only [hpc] at hstep
    split_ifs at hstep with htimeout hpre
    · cases hstep
      refine h.setTask htask ⟨rfl, id, fun hr => absurd hr hne⟩ ⟨hok.version, nofun, fun _ => hv, fun _ => hv,
        nofun, fun hc => absurd (hok.canceled hc) hne, nofun⟩
    · cases hstep
      exact (h.setMap _ _ _).setPc htask hne nofun fun _ => hv
    · cases hstep
      exact h.setPc htask hne nofun fun _ => hv
  | leaving =>
    simp only [hpc] at hstep
    cases hstep
    exact h.setPc htask (by simp [hpc]) nofun fun _ => hok.locked (by simp [hpc, LockPc.Locked])
  | waiting | returned _ | failed => simp [hpc] at hstep

theorem Inv.authored (h : Inv s) (htask : s.tasks[t]? = some task) {sender : Sender} {v : ℕ}
    (hr : (sender, .written v) ∈ s.replies) (ht : sender.task = t) :
    s.server.author v = some (task.key, t) := by
  subst ht
  obtain ⟨task', htask', ha⟩ := h.replies _ hr v rfl
  cases htask.symm.trans htask'
  exact ha

theorem Inv.lockReply (h : Inv s) (htask : s.tasks[t]? = some task) {answer : Answer}
    (hr : (.lock t, answer) ∈ s.replies) (hstep : LockServiceImpl.lockReply s t task answer = some s') :
    Inv s' := by
  unfold LockServiceImpl.lockReply at hstep
  split at hstep
  next v hpc =>
    cases hstep
    refine h.setPc htask (by simp [hpc]) (fun w hw => ?_) False.elim
    cases hw
    exact h.authored htask hr rfl
  next hpc =>
    cases hstep
    exact h.setPc htask (by simp [hpc]) nofun False.elim
  next => cases hstep

theorem Inv.runReply (h : Inv s) (htask : s.tasks[t]? = some task) {sender : Sender} {answer : Answer}
    (hr : (sender, answer) ∈ s.replies) (ht : sender.task = t)
    (hstep : LockServiceImpl.runReply s t task answer = some s') : Inv s' := by
  unfold LockServiceImpl.runReply at hstep
  split at hstep
  next n v hrun =>
    cases hstep
    refine h.setRun htask (by simp [hrun]) (fun m w hw => ?_) nofun
    cases hw
    exact h.authored htask hr ht
  iterate 4
    next n hrun =>
      cases hstep
      exact h.setRun htask (by simp [hrun]) nofun nofun
  next => cases hstep

theorem Inv.runTimeout (h : Inv s) (htask : s.tasks[t]? = some task)
    (hstep : LockServiceImpl.runTimeout s t task = some s') : Inv s' := by
  unfold LockServiceImpl.runTimeout at hstep
  split at hstep
  iterate 2
    next n hrun =>
      cases hstep
      exact h.setRun htask (by simp [hrun]) nofun nofun
  next => cases hstep

theorem Inv.runStep (h : Inv s) (htask : s.tasks[t]? = some task)
    (hstep : LockServiceImpl.runStep s t task = some s') : Inv s' := by
  have hok := h.tasks t task htask
  unfold LockServiceImpl.runStep at hstep
  split at hstep
  next hrun =>
    cases hstep
    exact h.setRun htask (by simp [hrun]) (by split_ifs <;> nofun) (by split_ifs <;> nofun)
  next hrun =>
    cases hstep
    exact h.setRun htask (by simp [hrun]) nofun nofun
  next hrun =>
    cases hstep
    exact h.setRun htask (by simp [hrun]) nofun nofun
  next n hrun =>
    split_ifs at hstep <;> cases hstep <;> exact h.setRun htask (by simp [hrun]) nofun nofun
  next n hrun =>
    cases hstep
    exact h.setRun htask (by simp [hrun]) (by split_ifs <;> nofun) (by split_ifs <;> nofun)
  next n hrun =>
    cases hstep
    have ha := hok.version (hok.running (by simp [hrun]))
    have hsend := h.send (.extend t task.attempt)
      (.cas task.key task.value task.version EXTEND_TIME_IN_SEC) ⟨task, htask, rfl, ha⟩
    exact hsend.setRun htask (by simp [hrun]) nofun nofun
  next n v hrun =>
    cases hstep
    have ha := hok.extended n v hrun
    have hv := h.version_ne_zero ha
    exact h.setTask htask ⟨rfl, id, id⟩
      { hok with
        version := fun _ => ha, locked := fun _ => hv, running := fun _ => hv
        extended := nofun, dropping := nofun }
  next n hrun =>
    cases hstep
    rw [LockTask.compareAndSet_eq]
    exact h.setRun htask (by simp [hrun]) nofun nofun
  next n extended hrun =>
    cases hstep
    rw [LockTask.compareAndSet_eq]
    exact h.setRun htask (by simp [hrun]) (by split_ifs <;> nofun) (by split_ifs <;> nofun)
  next n hrun =>
    cases hstep
    refine h.setRun htask (by simp [hrun]) (by split_ifs <;> nofun) fun m hm => ?_
    split_ifs at hm with hc
    exact hc
  next n hrun =>
    cases hstep
    have hv := hok.running (by simp [hrun])
    have hsend := h.send (.drop t) (.delete task.key task.version)
      ⟨task, htask, hv, hok.version hv, hok.dropping n hrun⟩
    exact hsend.setRun htask (by simp [hrun]) nofun nofun
  next d result hrun =>
    cases hstep
    rw [LockTask.compareAndSet_eq]
    exact h.setRun htask (by simp [hrun]) nofun nofun
  next result hrun =>
    cases hstep
    exact h.setRun htask (by simp [hrun]) (by split_ifs <;> nofun) (by split_ifs <;> nofun)
  next hrun =>
    cases hstep
    exact h.setRun htask (by simp [hrun]) nofun nofun
  all_goals cases hstep

theorem UnlockOk.setPc {call : UnlockCall C K} (h : UnlockOk s call) (hpc : call.pc ≠ .found)
    (pc : UnlockPc) : UnlockOk s { call with pc := pc } := by
  obtain ⟨task, htask, hreturned, hc⟩ := h
  exact ⟨task, htask, hreturned, fun _ => hc hpc⟩

theorem later_setStatus (htask : s.tasks[t]? = some task) (status : TaskStatus) :
    Later s (s.setTask t { task with status := status }) :=
  later_setTask htask ⟨rfl, id, id⟩

theorem Inv.setStatus (h : Inv s) (htask : s.tasks[t]? = some task) (status : TaskStatus) :
    Inv (s.setTask t { task with status := status }) :=
  h.setTask htask ⟨rfl, id, id⟩ { h.tasks t task htask with }

theorem Inv.unlockStep [DecidableEq C] [DecidableEq K] (h : Inv s) {u : ℕ} {call : UnlockCall C K}
    (hcall : s.unlocks[u]? = some call)
    (htask : s.tasks[call.task]? = some task) (hstep : LockServiceImpl.unlockStep s u call task = some s') :
    Inv s' := by
  have hok := h.tasks call.task task htask
  have hu := h.unlocks call (mem_of_getElem? hcall)
  obtain ⟨task', htask', hreturned, hcanceled⟩ := id hu
  cases htask.symm.trans htask'
  unfold LockServiceImpl.unlockStep at hstep
  split at hstep
  next hpc =>
    cases hstep
    have hle : task.Le { task with isCanceled := true } := ⟨rfl, fun _ => rfl, id⟩
    refine Inv.setUnlock (h.setTask htask hle
      { hok with canceled := fun _ => hreturned, dropping := fun _ _ => rfl }) u ?_
    exact ⟨_, getElem?_set_same htask _, hreturned, fun _ => rfl⟩
  next hpc =>
    have hne : call.pc ≠ .found := by simp [hpc]
    split_ifs at hstep
    · cases hstep
      exact (h.setStatus htask .canceling).setUnlock u
        ((later_setStatus htask .canceling).unlockOk (hu.setPc hne _))
    · cases hstep
      exact h.setUnlock u (hu.setPc hne _)
  next hpc =>
    cases hstep
    have hne : call.pc ≠ .found := by simp [hpc]
    have hv := hok.locked (by simp [hreturned, LockPc.Locked])
    have hsend := h.send (.cancel u call.task) (.delete task.key task.version)
      ⟨task, htask, hv, hok.version hv, hcanceled hne⟩
    exact hsend.setUnlock u (hu.setPc hne _)
  next result hpc =>
    cases hstep
    have hne : call.pc ≠ .found := by simp [hpc]
    rw [LockTask.compareAndSet_eq]
    exact (h.setStatus htask _).setUnlock u ((later_setStatus htask _).unlockOk (hu.setPc hne _))
  next result hpc =>
    cases hstep
    have hne : call.pc ≠ .found := by simp [hpc]
    exact (h.setMap _ _ _).setUnlock u (hu.setPc hne _)
  all_goals cases hstep

theorem Inv.unlockReply (h : Inv s) {u : ℕ} {call : UnlockCall C K} (hcall : s.unlocks[u]? = some call)
    {answer : Answer} (hstep : LockServiceImpl.unlockReply s u call answer = some s') : Inv s' := by
  have hu := h.unlocks call (mem_of_getElem? hcall)
  unfold LockServiceImpl.unlockReply at hstep
  split at hstep
  next hpc =>
    cases hstep
    exact h.setUnlock u (hu.setPc (by simp [hpc]) _)
  next hpc =>
    cases hstep
    exact h.setUnlock u (hu.setPc (by simp [hpc]) _)
  next hpc =>
    cases hstep
    exact h.setUnlock u (hu.setPc (by simp [hpc]) _)
  next => cases hstep

theorem Inv.serve [DecidableEq K] (h : Inv s) {m : Message K V} (hm : m ∈ s.requests) :
    Inv { s with server := (execute s.server m).1
                 replies := s.replies ++ [(m.sender, (execute s.server m).2)] } := by
  obtain ⟨task, htask, hok⟩ := h.messages m hm
  have hserver : (execute s.server m).1.Inv Expiry.timedOut (Revoked s) := by
    unfold execute
    cases hreq : m.request with
    | put key value ttl => exact h.server.create key _ value _
    | cas key value comparedVersion ttl =>
      rw [hreq] at hok
      exact h.server.replace value _ hok.2
    | delete key version =>
      rw [hreq] at hok
      exact h.server.remove hok.1 hok.2.1 ⟨task, htask, hok.2.2⟩
  have hauthor : ∀ n a, s.server.author n = some a → (execute s.server m).1.author n = some a := by
    intro n a ha
    unfold execute
    cases hreq : m.request with
    | put key value ttl | cas key value comparedVersion ttl => exact Table.author_writeIf h.server ha _ key _ value _
    | delete key version => simpa using ha
  have hreply : ∀ v, (execute s.server m).2 = .written v →
      (execute s.server m).1.author v = some (task.key, m.sender.task) := by
    intro v hv
    unfold execute at hv ⊢
    cases hreq : m.request with
    | put key value ttl =>
      simp only [hreq] at hv hok ⊢
      rw [hok]
      exact Table.author_of_written hv
    | cas key value comparedVersion ttl =>
      simp only [hreq] at hv hok ⊢
      rw [hok.1]
      exact Table.author_of_written hv
    | delete key version =>
      simp only [hreq, Table.remove] at hv
      split at hv
      · cases hv
      · split_ifs at hv
  have hl : Later s { s with server := (execute s.server m).1
                             replies := s.replies ++ [(m.sender, (execute s.server m).2)] } :=
    ⟨fun t x hx => ⟨x, hx, .refl x⟩, hauthor⟩
  refine h.later hl (hserver.mono fun o => hl.revoked) (fun t x hx => (h.tasks t x hx).mono hauthor)
    (fun _ => .inl) (fun r hr => ?_) (fun _ => .inl)
  rcases mem_append.mp hr with hr | hr
  · exact .inl hr
  · cases mem_singleton.mp hr
    exact .inr fun v hv => ⟨task, htask, hreply v hv⟩

end Steps

theorem Inv.lock {s : State C K V} (h : Inv s) (c : C) (k : K) (v : V) (timeout : Option ℕ) :
    Inv (lock s c k v timeout) := by
  have happend : ∀ task : LockTask C K V, TaskOk s.server.author s.tasks.length task →
      Inv { s with tasks := s.tasks ++ [task] } := by
    intro task hok
    have hl : Later s { s with tasks := s.tasks ++ [task] } :=
      ⟨fun t x hx => ⟨x, getElem?_of_isPrefix (prefix_append _ _) hx, .refl x⟩, fun _ _ => id⟩
    refine h.later hl (h.server.mono fun o => hl.revoked) (fun t x hx => ?_) (fun _ => .inl) (fun _ => .inl)
      (fun _ => .inl)
    rcases getElem?_snoc hx with hx | ⟨rfl, rfl⟩
    · exact h.tasks t x hx
    · exact hok
  have hnew := fun preTask => happend
    ⟨c, k, v, 0, .suspending, false, timeout, preTask, .registered, .idle, 0⟩
    ⟨fun hv => absurd rfl hv, nofun, False.elim, fun hr => absurd rfl hr, nofun, nofun, nofun⟩
  unfold LockServiceImpl.lock
  cases s.lockTaskMap c k with
  | none => exact (hnew none).setMap c k _
  | some p => exact hnew (some p)

omit [DecidableEq C] [DecidableEq K] in
theorem Inv.unlock {s : State C K V} (h : Inv s) {c : C} {k : K} {t : ℕ} {task : LockTask C K V}
    (htask : s.tasks[t]? = some task) (hpc : task.pc = .returned true) :
    Inv { s with unlocks := s.unlocks ++ [⟨c, k, t, .found⟩] } := by
  refine h.later ⟨fun i x hx => ⟨x, hx, .refl x⟩, fun _ _ => id⟩ h.server h.tasks (fun _ => .inl) (fun _ => .inl)
    (fun u hu => ?_)
  rcases mem_append.mp hu with hu | hu
  · exact .inl hu
  · cases mem_singleton.mp hu
    exact .inr ⟨task, htask, hpc, fun hne => absurd rfl hne⟩

theorem Inv.step {s s' : State C K V} {a : Act C K V} (h : Inv s) (hG : Orderly s a)
    (hstep : LockServiceImpl.step s a = some s') : Inv s' := by
  cases a with
  | lock c k v timeout =>
    cases hstep
    exact h.lock c k v timeout
  | lockStep t =>
    obtain ⟨task, htask, hstep⟩ := bind_eq_some_iff.mp hstep
    exact h.lockStep htask hstep
  | lockReply t j =>
    obtain ⟨task, htask, hstep⟩ := bind_eq_some_iff.mp hstep
    obtain ⟨⟨sender, answer⟩, hreply, hstep⟩ := bind_eq_some_iff.mp hstep
    split_ifs at hstep with hsender
    cases hsender
    exact h.lockReply htask (mem_of_getElem? hreply) hstep
  | lockTimeout t =>
    obtain ⟨task, htask, hstep⟩ := bind_eq_some_iff.mp hstep
    split_ifs at hstep with hpc
    cases hstep
    exact h.setPc htask (by simp [hpc]) nofun False.elim
  | unlock c k =>
    cases hstep
    cases hmap : s.lockTaskMap c k with
    | none => exact h
    | some t =>
      obtain ⟨task, htask, hpc⟩ := hG t hmap
      exact h.unlock htask hpc
  | unlockStep u =>
    obtain ⟨call, hcall, hstep⟩ := bind_eq_some_iff.mp hstep
    obtain ⟨task, htask, hstep⟩ := bind_eq_some_iff.mp hstep
    exact h.unlockStep hcall htask hstep
  | unlockReply u j =>
    obtain ⟨call, hcall, hstep⟩ := bind_eq_some_iff.mp hstep
    obtain ⟨reply, hreply, hstep⟩ := bind_eq_some_iff.mp hstep
    split_ifs at hstep
    exact h.unlockReply hcall hstep
  | unlockTimeout u =>
    obtain ⟨call, hcall, hstep⟩ := bind_eq_some_iff.mp hstep
    split_ifs at hstep with hpc
    cases hstep
    exact h.setUnlock u ((h.unlocks call (mem_of_getElem? hcall)).setPc (by simp [hpc]) _)
  | runStep t =>
    obtain ⟨task, htask, hstep⟩ := bind_eq_some_iff.mp hstep
    exact h.runStep htask hstep
  | runReply t j =>
    obtain ⟨task, htask, hstep⟩ := bind_eq_some_iff.mp hstep
    obtain ⟨⟨sender, answer⟩, hreply, hstep⟩ := bind_eq_some_iff.mp hstep
    split_ifs at hstep with hsender
    have ht : sender.task = t := by
      rcases hsender with hsender | hsender <;> cases hsender <;> rfl
    exact h.runReply htask (mem_of_getElem? hreply) ht hstep
  | runTimeout t =>
    obtain ⟨task, htask, hstep⟩ := bind_eq_some_iff.mp hstep
    exact h.runTimeout htask hstep
  | serve i =>
    obtain ⟨m, hm, rfl⟩ := map_eq_some_iff.mp hstep
    exact h.serve (mem_of_getElem? hm)
  | serveOther =>
    cases hstep
    exact { h with server := h.server.bump }
  | tick =>
    cases hstep
    exact { h with server := h.server.tick timedOut_mono (Nat.le_succ _) }

/-- The task's call of `lock` has returned true, the task is not cancelled and the ttl of its last write
has not run out. -/
def Holds (s : State C K V) (k : K) (t : ℕ) : Prop :=
  s.server.Leased Expiry.timedOut k t ∧
    ∃ task, s.tasks[t]? = some task ∧ task.key = k ∧ task.pc = .returned true ∧ task.isCanceled = false

omit [DecidableEq C] [DecidableEq K] in
theorem Holds.not_revoked {s : State C K V} {k : K} {t : ℕ} (h : Holds s k t) : ¬ Revoked s t := by
  rintro ⟨task, htask, hc⟩
  obtain ⟨-, task', htask', -, -, hc'⟩ := h
  cases htask.symm.trans htask'
  exact Bool.noConfusion (hc.symm.trans hc')

/-- No delete changes a key that a task holds, and no call of `lock` returns true for such a key. -/
structure Safe (s : State C K V) (a : Act C K V) (s' : State C K V) : Prop where
  deletes : ∀ i m key version, a = .serve i → s.requests[i]? = some m → m.request = .delete key version →
    s'.server.record key ≠ s.server.record key → ∀ t, ¬ Holds s key t
  returns : ∀ t task, a = .lockStep t → s.tasks[t]? = some task → task.pc = .leaving →
    ∀ t', ¬ Holds s task.key t'
  unique : ∀ key t t', Holds s key t → Holds s key t' → t = t'

theorem Inv.safe {s s' : State C K V} {a : Act C K V} (h : Inv s) (hG : Orderly s a)
    (hstep : LockServiceImpl.step s a = some s') : Safe s a s' where
  deletes i m key version ha hm hreq hchange t ht := by
    subst ha
    obtain ⟨m', hm', rfl⟩ := map_eq_some_iff.mp hstep
    cases hm.symm.trans hm'
    obtain ⟨task, htask, hok⟩ := h.messages m (mem_of_getElem? hm)
    simp only [hreq] at hok
    simp only [execute, hreq] at hchange
    exact ht.not_revoked
      (h.server.not_leased_of_remove hok.1 hok.2.1 ⟨task, htask, hok.2.2⟩ hchange ht.1)
  returns t task ha htask hpc t' ht' := by
    subst ha
    have hnot : ¬ Revoked s t := by
      rintro ⟨task', htask', hc⟩
      cases htask.symm.trans htask'
      exact absurd ((h.tasks t task htask).canceled hc) (by simp [hpc])
    obtain rfl := h.server.owner_unique (hG task htask hpc) hnot ht'.1 ht'.not_revoked
    obtain ⟨-, task', htask', -, hreturned, -⟩ := ht'
    cases htask.symm.trans htask'
    simp [hpc] at hreturned
  unique key t t' ht ht' := h.server.owner_unique ht.1 ht.not_revoked ht'.1 ht'.not_revoked

omit [DecidableEq C] [DecidableEq K] in
theorem Inv.initial : Inv ({} : State C K V) where
  server := Table.Inv.initial
  tasks t task htask := by simp at htask
  messages := forall_mem_nil _
  replies := forall_mem_nil _
  unlocks := forall_mem_nil _

theorem lock_safe {acts : List (Act C K V)} (hG : Meets step Orderly {} acts) {pre post : List (Act C K V)}
    {a : Act C K V} {s s' : State C K V} (hacts : acts = pre ++ a :: post)
    (hs : exec step {} pre = some s) (hstep : step s a = some s') : Safe s a s' := by
  subst hacts
  obtain ⟨hpre, ha⟩ := meets_append_cons hG hs hstep
  exact (exec_invariant (fun _ _ _ hs hg ht => hs.step hg ht) Inv.initial hpre hs).safe ha hstep

/-- A call of `lock` that is granted. -/
def granted (task request reply : ℕ) : List (Act Bool Unit Unit) :=
  [.lockStep task, .lockStep task, .serve request, .lockReply task reply, .lockStep task, .lockStep task,
    .lockStep task]

/-- One client locks, extends and unlocks; then the other one locks. -/
def handover : List (Act Bool Unit Unit) :=
  [.lock false () () none] ++ granted 0 0 0 ++
    [.runStep 0, .runStep 0, .runStep 0, .runStep 0, .runStep 0, .serve 1, .runReply 0 1, .runStep 0, .runStep 0,
      .runStep 0, .unlock false (), .unlockStep 0, .unlockStep 0, .unlockStep 0, .serve 2, .unlockReply 0 2,
      .unlockStep 0, .unlockStep 0, .lock true () () (some 10)] ++ granted 1 3 3

theorem orderly_handover : Meets step Orderly {} handover := by decide +kernel

/-- When the second call returns true nobody else holds the key. -/
theorem handover_safe : ∃ s s', exec step {} handover.dropLast = some s ∧
    step s (.lockStep 1) = some s' ∧ s'.tasks.map LockTask.pc = [.returned true, .returned true] ∧
      Safe s (.lockStep 1) s' := by
  obtain ⟨s, s', hs, hstep, hpc⟩ : ∃ s s', exec step {} handover.dropLast = some s ∧
      step s (.lockStep 1) = some s' ∧ s'.tasks.map LockTask.pc = [.returned true, .returned true] :=
    ⟨_, _, rfl, rfl, rfl⟩
  have hlast : handover = handover.dropLast ++ .lockStep 1 :: [] := rfl
  exact ⟨s, s', hs, hstep, hpc, lock_safe orderly_handover hlast hs hstep⟩

/-- One client holds the lock. The other one asks for it with a timeout, is refused, and unlocks. -/
def refusedUnlock : List (Act Bool Unit Unit) :=
  [.lock false () () none] ++ granted 0 0 0 ++
    [.lock true () () (some 10), .lockStep 1, .lockStep 1, .serve 1, .lockReply 1 1, .lockStep 1,
      .unlock true (), .unlockStep 0, .unlockStep 0, .unlockStep 0]

/-- The refused task is left in the map with the version 0, so that its delete is unconditional: the
holder's key is gone, and the next call of `lock` is granted while the holder still holds. -/
theorem refusedUnlock_unsafe :
    (∃ s s', exec step {} refusedUnlock = some s ∧ step s (.serve 2) = some s' ∧ Holds s () 0 ∧
      s.requests[2]? = some ⟨.cancel 0 1, .delete () 0⟩ ∧ (s.server.record ()).isSome ∧
        s'.server.record () = none) ∧
    ∃ s, exec step {} (refusedUnlock ++ [.serve 2, .unlockReply 0 2, .unlockStep 0, .unlockStep 0,
      .lock true () () (some 10)] ++ granted 2 3 3) = some s ∧ Holds s () 0 ∧ Holds s () 2 :=
  ⟨⟨_, _, rfl, rfl, ⟨⟨_, rfl, rfl⟩, _, rfl, rfl, rfl, rfl⟩, rfl, rfl, rfl⟩,
    _, rfl, ⟨⟨_, rfl, rfl⟩, _, rfl, rfl, rfl, rfl⟩, ⟨_, rfl, rfl⟩, _, rfl, rfl, rfl, rfl⟩

end Goblin.Client.LockServiceImpl
