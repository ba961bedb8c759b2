import Goblin.Client.LockExchange

/-! The steps of `lock`, of `unlock` and of the server keep what holds of the requests and the tasks
together. -/
namespace Goblin.Client.LockServiceImpl

open Lib Lib.Lease List Option

variable {C K V : Type} [DecidableEq C] [DecidableEq K]

attribute [local simp] State.claim State.runClaim LockPc.sent UnlockPc.sent

section LockSteps

variable {s s' : State C K V} {t : ℕ} {task : LockTask C K V}

omit [DecidableEq C] [DecidableEq K]

theorem Shape.run_idle (h : Shape task) (hpc : task.pc ≠ .returned true) (hleaving : task.pc ≠ .leaving) :
    task.run = .idle := by
  by_contra hrun
  rcases (h.run hrun).2 with hpc' | hpc'
  · exact hleaving hpc'
  · exact hpc hpc'

/-- A step of a call of `lock` before its background task is submitted, or the one that submits it. -/
theorem Move.pc {pc : LockPc} (version : ℕ) (run : RunPc) (hshape : Shape task) (hpc : task.pc ≠ .returned true)
    (hleaving : task.pc ≠ .leaving)
    (hrun : run = .idle ∨ run = .loop ∧ task.timeout = none ∧ pc = .leaving) (hthrow : pc ≠ .thrown ∧ pc ≠ .failed)
    (hrefused : pc = .refused → task.timeout = none ∨ task.preTask ≠ none)
    (hclaim : ∀ v, s.claim t task = some v →
      s.claim t { task with pc := pc, version := version, run := run } = some v)
    (hsent : task.pc.sent = true → pc.sent = true)
    (hanswered : task.pc = .waiting → s.answerTo (.lock t) ≠ none) :
    Move s t task { task with pc := pc, version := version, run := run } [] := by
  have hidle := hshape.run_idle hpc hleaving
  have hcanceled : task.isCanceled = false := by
    cases hc : task.isCanceled with
    | false => rfl
    | true => exact absurd (hshape.canceled hc) hpc
  have hrunning : task.status ≠ .running := fun hr => by simpa [hidle, RunPc.active] using hshape.running hr hcanceled
  have hfailed : task.status ≠ .failed := hshape.not_failed (by simp [hidle])
  have hloop : run.active = false ∧ run ≠ .extending 0 ∧ (∀ n, run ≠ .retrying n) ∧ (∀ n, run ≠ .dropping n) ∧
      (∀ n, run ≠ .waiting n) ∧ ∀ n, run ≠ .deleting n := by
    rcases hrun with rfl | ⟨rfl, -⟩ <;> simp [RunPc.active]
  obtain ⟨hactive, hextending, hretrying, hdropping, hwaiting, hdeleting⟩ := hloop
  refine ⟨⟨rfl, rfl, rfl, rfl, rfl⟩, fun hr => absurd hr hpc, fun _ hr => absurd hr hpc, id,
    ⟨fun hr => ?_, ⟨hextending, hretrying⟩, hthrow, hrefused, by simp [hactive], fun hr => absurd hr hrunning,
      hshape.canceling, fun hf => absurd hf hfailed, by simp [hcanceled], fun n hn => absurd hn (hdropping n)⟩,
    hclaim, fun x hx => ?_, fun x req hcancel hi hnone hx hawaits => ?_, nofun,
    fun _ => ⟨fun n hn => absurd hn (hwaiting n), fun n hn => absurd hn (hdeleting n)⟩, by simp [hcanceled]⟩
  · rcases hrun with hr' | ⟨-, htimeout, hleft⟩
    · exact absurd hr' hr
    · exact ⟨htimeout, .inl hleft⟩
  · cases x with
    | lock i => exact hsent hx
    | extend i a => exact hx.imp_right fun hx => by simp [hidle, RunPc.extendSent] at hx
    | drop i => simp [LockTask.Sent, hcanceled] at hx
    | cancel u i => exact hx
  · cases x with
    | lock i =>
      obtain rfl : i = t := hi
      exact absurd hnone (hanswered hawaits.1)
    | extend i a | drop i => simp [LockTask.Awaits, hidle] at hawaits
    | cancel u i => exact absurd rfl (hcancel u i)

theorem Exchange.lockReply (h : Exchange s) (htask : s.tasks[t]? = some task) {answer : Answer}
    (hreply : (.lock t, answer) ∈ s.replies) (hstep : LockServiceImpl.lockReply s t task answer = some s') :
    Exchange s' := by
  have hshape := h.shape t task htask
  have hanswer := h.answerTo_of_mem hreply
  have hgoes {pc : LockPc} (hpc : task.pc = .waiting) (hthrow : pc ≠ .thrown ∧ pc ≠ .failed)
      (hrefused : pc = .refused → task.timeout = none ∨ task.preTask ≠ none)
      (hclaim : ∀ v, s.claim t task = some v → s.claim t { task with pc := pc } = some v) (hsent : pc.sent = true) :
      Exchange (s.setTask t { task with pc := pc }) := by
    have hidle := hshape.run_idle (by simp [hpc]) (by simp [hpc])
    exact h.setTask htask (.pc task.version task.run hshape (by simp [hpc]) (by simp [hpc])
      (.inl hidle) hthrow hrefused hclaim (fun _ => hsent) fun _ => by simp [hanswer])
  unfold LockServiceImpl.lockReply at hstep
  split at hstep
  next v hpc =>
    cases hstep
    exact hgoes hpc (by simp) nofun (by simp [hpc, hanswer, version?]) rfl
  next hpc =>
    cases hstep
    exact hgoes hpc (by simp) (fun _ => h.refusals t task hreply htask)
      (by simp [hpc, hanswer, version?]) rfl
  next => cases hstep

end LockSteps

section LockSteps

variable {s s' : State C K V} {t : ℕ} {task : LockTask C K V}

theorem Exchange.lockStep (h : Exchange s) (htask : s.tasks[t]? = some task)
    (hstep : LockServiceImpl.lockStep s t task = some s') : Exchange s' := by
  have hshape := h.shape t task htask
  -- the map is of no concern here
  have hgoes {pc : LockPc} {map : C → K → Option ℕ} (hpc : task.pc ≠ .returned true) (hleaving : task.pc ≠ .leaving)
      (hwaiting : task.pc ≠ .waiting) (hthrow : pc ≠ .thrown ∧ pc ≠ .failed) (hrefused : pc ≠ .refused)
      (hclaim : ∀ v, s.claim t task = some v → s.claim t { task with pc := pc } = some v)
      (hsent : task.pc.sent = true → pc.sent = true) :
      Exchange { s.setTask t { task with pc := pc } with lockTaskMap := map } := by
    have hidle := hshape.run_idle hpc hleaving
    exact h.move htask (.pc task.version task.run hshape hpc hleaving (.inl hidle) hthrow
      (fun hr => absurd hr hrefused) hclaim hsent fun hw => absurd hw hwaiting) ⟨rfl, rfl, rfl⟩ rfl
      (append_nil _).symm
  unfold LockServiceImpl.lockStep at hstep
  cases hpc : task.pc with
  | waiting | returned result | failed => simp [hpc] at hstep
  | thrown => exact absurd hpc hshape.noThrow.1
  | registered =>
    simp only [hpc] at hstep
    split at hstep
    · cases hstep
      refine hgoes ?_ ?_ ?_ ?_ ?_ ?_ ?_ <;> simp [hpc]
    · split_ifs at hstep <;> cases hstep <;> refine hgoes ?_ ?_ ?_ ?_ ?_ ?_ ?_ <;>
        simp [hpc]
  | replacing =>
    simp only [hpc, Option.some.injEq] at hstep
    subst hstep
    refine hgoes ?_ ?_ ?_ ?_ ?_ ?_ ?_ <;> simp [hpc]
  | sending =>
    simp only [hpc, Option.some.injEq] at hstep
    subst hstep
    have hidle := hshape.run_idle (by simp [hpc]) (by simp [hpc])
    have hmove : Move s t task { task with pc := .waiting } [] :=
      .pc task.version task.run hshape (by simp [hpc]) (by simp [hpc]) (.inl hidle) (by simp)
        nofun (by simp [hpc]) (fun _ => rfl) (by simp [hpc])
    refine h.move htask { hmove with request := fun m hm => ?_, waits := fun _ => ?_ } ⟨rfl, rfl, rfl⟩ rfl rfl
    · obtain rfl := mem_singleton.mp hm
      exact ⟨rfl, nofun, rfl, rfl, _, rfl⟩
    · exact ⟨by simp [hidle], by simp [hidle]⟩
  | refused =>
    simp only [hpc, Option.some.injEq] at hstep
    subst hstep
    split_ifs <;> refine hgoes ?_ ?_ ?_ ?_ ?_ ?_ ?_ <;> simp [hpc]
  | answered v =>
    simp only [hpc, Option.some.injEq] at hstep
    subst hstep
    have hidle := hshape.run_idle (by simp [hpc]) (by simp [hpc])
    refine h.setTask htask (.pc _ task.run hshape ?_ ?_ (.inl hidle) ?_ ?_ ?_ ?_ ?_) <;>
      simp [hpc, hidle]
  | locked =>
    have hidle := hshape.run_idle (by simp [hpc]) (by simp [hpc])
    simp only [hpc] at hstep
    split_ifs at hstep with htimeout hpre
    · cases hstep
      refine h.setTask htask (.pc task.version _ hshape ?_ ?_ (.inr ⟨rfl, htimeout, rfl⟩) ?_ ?_ ?_ ?_ ?_) <;>
        simp [hpc, hidle]
    · cases hstep
      refine hgoes ?_ ?_ ?_ ?_ ?_ ?_ ?_ <;> simp [hpc, hidle]
    · cases hstep
      refine hgoes ?_ ?_ ?_ ?_ ?_ ?_ ?_ <;> simp [hpc, hidle]
  | leaving =>
    simp only [hpc, Option.some.injEq] at hstep
    subst hstep
    have hcanceled : task.isCanceled = false := by
      cases hc : task.isCanceled with
      | false => rfl
      | true => exact absurd (hshape.canceled hc) (by simp [hpc])
    refine h.setTask htask ⟨⟨rfl, rfl, rfl, rfl, rfl⟩, fun _ => rfl, fun _ _ => rfl, id,
      { hshape with
        run := fun hr => ⟨(hshape.run hr).1, .inr rfl⟩, noThrow := by simp, refused := nofun
        canceled := fun _ => rfl },
      fun v hv => ?_, fun x hx => ?_, fun x req hcancel hi hnone hx hawaits => ?_, nofun,
      fun hw => by simpa using ⟨hw.extend, hw.drop⟩, by simp [hcanceled]⟩
    · have hv : s.runClaim t task = some v := by simpa [hpc] using hv
      exact hv
    · cases x with
      | lock i => rfl
      | extend i a | drop i | cancel u i => exact hx
    · cases x with
      | lock i => simp [LockTask.Awaits, hpc] at hawaits
      | extend i a | drop i | cancel u i => exact hawaits

end LockSteps

section UnlockSteps

/-- A step of a call of `unlock`, which may change the status and set `isCanceled`. -/
structure UnlockMove (s : State C K V) (u : ℕ) (call : UnlockCall C K) (task : LockTask C K V) (pc : UnlockPc)
    (status : TaskStatus) (isCanceled : Bool) (new : List (Message K V)) : Prop where
  canceled : task.isCanceled = true → isCanceled = true
  found : pc = .found ↔ isCanceled = false
  cancels : pc.cancels = true → status = .canceling ∨ status = .failed
  shape : Shape { task with status := status, isCanceled := isCanceled }
  failed : status = .failed ↔ task.status = .failed
  sent : call.pc.sent = true → pc.sent = true
  answered : call.pc = .waiting → s.answerTo (.cancel u call.task) ≠ none
  request : ∀ m ∈ new, m = ⟨.cancel u call.task, .delete task.key task.version⟩ ∧ pc = .waiting
  waits : pc = .waiting → new ≠ []
  release : isCanceled = true → (∃ v, s.claim call.task task = some v) →
    (task.isCanceled = true → s.Canceling call.task task.status ∨ task.run.drops = true) →
    pc = .canceled ∧ status = .suspending ∨ pc = .sending ∨
      pc = .waiting ∧ s.answerTo (.cancel u call.task) = none ∨ task.run.drops = true

variable {s s' : State C K V} {u : ℕ} {call : UnlockCall C K} {task : LockTask C K V} {pc : UnlockPc}
  {status : TaskStatus} {isCanceled : Bool} {new : List (Message K V)}

omit [DecidableEq C] [DecidableEq K]

/-- The state after such a step. -/
structure Unlocks (s : State C K V) (u : ℕ) (call : UnlockCall C K) (task : LockTask C K V) (pc : UnlockPc)
    (status : TaskStatus) (isCanceled : Bool) (new : List (Message K V)) (s' : State C K V) : Prop where
  server : s'.server = s.server
  replies : s'.replies = s.replies
  tasks : s'.tasks = s.tasks.set call.task { task with status := status, isCanceled := isCanceled }
  unlocks : s'.unlocks = s.unlocks.set u { call with pc := pc }
  requests : s'.requests = s.requests ++ new

namespace Unlocks

variable {i j : ℕ} {c : UnlockCall C K} {x : LockTask C K V} {m : Message K V}

variable (hs : Unlocks s u call task pc status isCanceled new s') (hcall : s.unlocks[u]? = some call)
  (htask : s.tasks[call.task]? = some task)

include hs

theorem other (hi : i ≠ call.task) : s'.tasks[i]? = s.tasks[i]? := hs.tasks ▸ getElem?_set_other hi

theorem callOther (hj : j ≠ u) : s'.unlocks[j]? = s.unlocks[j]? := hs.unlocks ▸ getElem?_set_other hj

theorem subset : s.requests ⊆ s'.requests := hs.requests ▸ subset_append_left _ _

include htask in
theorem self : s'.tasks[call.task]? = some { task with status := status, isCanceled := isCanceled } :=
  hs.tasks ▸ getElem?_set_same htask _

include hcall

theorem callSelf : s'.unlocks[u]? = some { call with pc := pc } := hs.unlocks ▸ getElem?_set_same hcall _

/-- A call for another task is not the one that moves. -/
theorem keeps (hc : s.unlocks[j]? = some c) (hne : c.task ≠ call.task) : s'.unlocks[j]? = some c := by
  have hj : j ≠ u := by
    rintro rfl
    cases hc.symm.trans hcall
    exact hne rfl
  exact (hs.callOther hj).trans hc

/-- Every call stands for the task that it stood for before. -/
theorem exists_call (hc : s'.unlocks[j]? = some c) : ∃ c₀, s.unlocks[j]? = some c₀ ∧ c₀.task = c.task := by
  by_cases hj : j = u
  · subst hj
    cases (hs.callSelf hcall).symm.trans hc
    exact ⟨call, hcall, rfl⟩
  · exact ⟨c, (hs.callOther hj).symm.trans hc, rfl⟩

variable (h : Exchange s) (hmove : UnlockMove s u call task pc status isCanceled new)

include h hmove htask

theorem received_old (hm : m ∈ s.requests) : ∃ x, s'.tasks[m.sender.task]? = some x ∧ Received s' m x := by
  obtain ⟨x, hx, hrec⟩ := h.messages m hm
  have hcallOf (u' t' : ℕ) (hsender : m.sender = .cancel u' t') : ∃ c, s'.unlocks[u']? = some c ∧ c.task = t' ∧
      c.pc.sent = true ∧ (s'.answerTo m.sender = none → c.pc = .waiting) := by
    obtain ⟨c, hc, rfl, hsent, hwaiting⟩ := hrec.call u' t' hsender
    rw [answerTo_congr hs.replies]
    by_cases hu : u' = u
    · subst hu
      cases hc.symm.trans hcall
      refine ⟨_, hs.callSelf hcall, rfl, hmove.sent hsent, fun hnone => ?_⟩
      exact absurd (hsender ▸ hnone) (hmove.answered (hwaiting hnone))
    · exact ⟨c, (hs.callOther hu).trans hc, rfl, hsent, hwaiting⟩
  by_cases hi : m.sender.task = call.task
  · cases hx.symm.trans (hi ▸ htask)
    refine ⟨_, hi ▸ hs.self htask, ?_, fun hnone => ?_, hcallOf⟩
    · have hsent := hrec.sent
      cases hsender : m.sender with
      | lock i | extend i a | cancel v i =>
        rw [hsender] at hsent
        exact hsent
      | drop i =>
        rw [hsender] at hsent
        exact ⟨hmove.canceled hsent.1, hsent.2⟩
    · have hawaits := hrec.awaits (answerTo_congr hs.replies ▸ hnone)
      cases hsender : m.sender <;> rw [hsender] at hawaits <;> exact hawaits
  · exact ⟨x, (hs.other hi).trans hx, hrec.sent, answerTo_congr hs.replies ▸ hrec.awaits, hcallOf⟩

theorem received (hm : m ∈ s'.requests) : ∃ x, s'.tasks[m.sender.task]? = some x ∧ Received s' m x := by
  rw [hs.requests] at hm
  rcases mem_append.mp hm with hm | hm
  · exact hs.received_old hcall htask h hmove hm
  · obtain ⟨rfl, rfl⟩ := hmove.request m hm
    refine ⟨_, hs.self htask, trivial, fun _ => rfl, fun u' t' hsender => ?_⟩
    cases hsender
    exact ⟨_, hs.callSelf hcall, rfl, rfl, fun _ => rfl⟩

theorem callOk (hc : s'.unlocks[j]? = some c) : ∃ x, s'.tasks[c.task]? = some x ∧ CallOk s' j c x := by
  by_cases hj : j = u
  · subst hj
    cases (hs.callSelf hcall).symm.trans hc
    refine ⟨_, hs.self htask, (h.callOk hcall htask).returned, hmove.found, hmove.cancels, fun hpc => ?_⟩
    obtain ⟨m, hm⟩ := exists_mem_of_ne_nil new (hmove.waits hpc)
    refine ⟨m, by rw [hs.requests]; exact mem_append_right _ hm, ?_⟩
    rw [(hmove.request m hm).1]
  · rw [hs.callOther hj] at hc
    obtain ⟨x, hx, hok⟩ := h.calls j c hc
    have hne : c.task ≠ call.task := fun he => hj (h.oneCall j u c call hc hcall he)
    exact ⟨x, (hs.other hne).trans hx, hok.mono hs.subset⟩

theorem fits_self : TaskFits s' call.task { task with status := status, isCanceled := isCanceled } := by
  have hclaim : s'.claim call.task { task with status := status, isCanceled := isCanceled } =
    s.claim call.task task := by
    rw [claim_congr hs.replies]
    unfold State.claim State.runClaim
    simp only [hmove.failed]
  have hcallSelf := hs.callSelf hcall
  have hold := h.fits htask
  have hwaits := hold.waits.mono hs.subset
  refine ⟨fun hreply => hold.refusals (hs.replies ▸ hreply), hmove.shape, fun v hv => ?_, ⟨hwaits.extend, hwaits.drop⟩,
    fun _ => ⟨_, mem_of_getElem? hcallSelf, rfl⟩, fun hc v hv => ?_⟩
  · rw [hclaim]
    exact hold.own v (owned_congr hs.server ▸ hv)
  · rw [owned_congr hs.server] at hv
    rcases hmove.release hc ⟨v, hold.own v hv⟩ fun hc => hold.release hc v hv with hpc | hpc | hpc | hdrops
    · exact .inl ⟨u, _, hcallSelf, rfl, .inl hpc⟩
    · exact .inl ⟨u, _, hcallSelf, rfl, .inr (.inl hpc)⟩
    · exact .inl ⟨u, _, hcallSelf, rfl, .inr (.inr (answerTo_congr hs.replies ▸ hpc))⟩
    · exact .inr hdrops

omit hmove htask in
theorem fits_other (hi : i ≠ call.task) (hx : s'.tasks[i]? = some x) : TaskFits s' i x := by
  refine (h.fits ((hs.other hi).symm.trans hx)).keep hs.replies hs.subset ?_ ?_ ?_
  · rw [owned_congr hs.server]
    exact fun _ => id
  · rintro ⟨c, hc, rfl⟩
    obtain ⟨j, hj⟩ := mem_iff_getElem?.mp hc
    exact ⟨c, mem_of_getElem? (hs.keeps hcall hj hi), rfl⟩
  · rintro ⟨j, c, hj, rfl, hpending⟩
    exact ⟨j, c, hs.keeps hcall hj hi, rfl, answerTo_congr hs.replies ▸ hpending⟩

end Unlocks

theorem Exchange.unlockMove (h : Exchange s) (hcall : s.unlocks[u]? = some call)
    (htask : s.tasks[call.task]? = some task) (hmove : UnlockMove s u call task pc status isCanceled new)
    (hs : Unlocks s u call task pc status isCanceled new s') : Exchange s' := by
  refine .of_fits (hs.replies ▸ h.senders) (h.replies_mono hs.replies hs.subset)
    (fun m hm => hs.received hcall htask h hmove hm) ?_ (fun j c hc => hs.callOk hcall htask h hmove hc)
    (fun j j' c c' hc hc' heq => ?_) fun i x hx => ?_
  · rw [hs.server, hs.tasks, length_set]
    exact h.owners
  · obtain ⟨c₀, hc₀, h₀⟩ := hs.exists_call hcall hc
    obtain ⟨c₁, hc₁, h₁⟩ := hs.exists_call hcall hc'
    exact h.oneCall j j' c₀ c₁ hc₀ hc₁ (h₀.trans (heq.trans h₁.symm))
  · by_cases hi : i = call.task
    · subst hi
      cases (hs.self htask).symm.trans hx
      exact hs.fits_self hcall htask h hmove
    · exact hs.fits_other hcall h hi hx

theorem Exchange.of_canceling (h : Exchange s) (hcall : s.unlocks[u]? = some call)
    (hcanceling : s.Canceling call.task status) : call.pc = .canceled ∧ status = .suspending ∨ call.pc = .sending ∨
      call.pc = .waiting ∧ s.answerTo (.cancel u call.task) = none := by
  obtain ⟨j, c, hj, htask, hpc⟩ := hcanceling
  obtain rfl := h.oneCall j u c call hj hcall htask
  obtain rfl : c = call := Option.some.inj (hj.symm.trans hcall)
  exact hpc

/-- A step of the call after its task was cancelled that leaves `isCanceled` as it is. -/
theorem UnlockMove.later (h : Exchange s) (hcall : s.unlocks[u]? = some call)
    (htask : s.tasks[call.task]? = some task) (hfound : call.pc ≠ .found) (hfound' : pc ≠ .found)
    (hcancels : pc.cancels = true → status = .canceling ∨ status = .failed)
    (hshape : Shape { task with status := status }) (hfailed : status = .failed ↔ task.status = .failed)
    (hsent : call.pc.sent = true → pc.sent = true) (hwaits : pc ≠ .waiting)
    (hrelease : call.pc = .canceled ∧ task.status = .suspending → pc = .sending)
    (hsending : call.pc ≠ .sending) (hwaiting : call.pc = .waiting → s.answerTo (.cancel u call.task) ≠ none) :
    UnlockMove s u call task pc status task.isCanceled [] := by
  have hcanceled := (h.callOk hcall htask).isCanceled hfound
  refine ⟨id, by simp [hfound', hcanceled], hcancels, hshape, hfailed, hsent, hwaiting, nofun,
    fun hpc => absurd hpc hwaits, fun _ _ hold => ?_⟩
  rcases hold hcanceled with hcanceling | hdrops
  · rcases h.of_canceling hcall hcanceling with hpc | hpc | ⟨hpc, hnone⟩
    · exact .inr (.inl (hrelease hpc))
    · exact absurd hpc hsending
    · exact absurd hnone (hwaiting hpc)
  · exact .inr (.inr (.inr hdrops))

theorem Exchange.unlockReply (h : Exchange s) (hcall : s.unlocks[u]? = some call) {answer : Answer}
    (hreply : (.cancel u call.task, answer) ∈ s.replies)
    (hstep : LockServiceImpl.unlockReply s u call answer = some s') : Exchange s' := by
  obtain ⟨task, htask, hok⟩ := h.calls u call hcall
  have hanswer := h.answerTo_of_mem hreply
  have hgoes (hpc : call.pc = .waiting) (result : Option Bool) :
      Exchange (s.setUnlock u { call with pc := .restoring result }) := by
    have hmove : UnlockMove s u call task (.restoring result) task.status task.isCanceled [] := by
      refine .later h hcall htask ?_ ?_ (fun _ => hok.cancels (by rw [hpc]; rfl))
        (h.shape _ task htask) Iff.rfl ?_ ?_ ?_ ?_ ?_ <;>
        simp [hpc, hanswer]
    exact h.unlockMove hcall htask hmove ⟨rfl, rfl, (set_self htask).symm, rfl, (append_nil _).symm⟩
  unfold LockServiceImpl.unlockReply at hstep
  split at hstep
  next hpc =>
    cases hstep
    exact hgoes hpc _
  next hpc =>
    cases hstep
    exact hgoes hpc _
  next hpc =>
    cases hstep
    exact hgoes hpc _
  next => cases hstep

/-- Setting `isCanceled` outside of the gap between the status and the flag: the call itself or the attempt
that is under way will delete the key. -/
theorem UnlockMove.cancel (h : Exchange s) (hcall : s.unlocks[u]? = some call)
    (htask : s.tasks[call.task]? = some task) (hpc : call.pc = .found) (hguard : task.run.isChecking = false) :
    UnlockMove s u call task .canceled task.status true [] := by
  have hok := h.callOk hcall htask
  have hshape := h.shape _ task htask
  have hcanceled : task.isCanceled = false := hok.found.mp hpc
  refine ⟨fun _ => rfl, by simp, by simp [UnlockPc.cancels],
    { hshape with
      running := nofun
      canceling := fun _ => rfl
      canceled := fun _ => hok.returned
      dropping := fun _ _ => rfl }, Iff.rfl, by simp [hpc], by simp [hpc], nofun, nofun, ?_⟩
  rintro - ⟨v, hv⟩ -
  cases hstatus : task.status with
  | suspending => exact .inl ⟨rfl, rfl⟩
  | running =>
    have hactive := hshape.running hstatus hcanceled
    refine .inr (.inr (.inr ?_))
    cases hrun : task.run <;> simp_all [RunPc.active, RunPc.drops, RunPc.isChecking]
  | failed => simp [hok.returned, hshape.failed hstatus, hstatus] at hv
  | canceling => exact absurd (hshape.canceling hstatus) (by simp [hcanceled])

end UnlockSteps

section UnlockSteps

variable {s s' : State C K V} {u : ℕ} {call : UnlockCall C K} {task : LockTask C K V}

theorem Exchange.unlockStep (h : Exchange s) (hcall : s.unlocks[u]? = some call)
    (htask : s.tasks[call.task]? = some task) (hguard : call.pc = .found → task.run.isChecking = false)
    (hstep : LockServiceImpl.unlockStep s u call task = some s') : Exchange s' := by
  have hshape := h.shape _ task htask
  have hok := h.callOk hcall htask
  unfold LockServiceImpl.unlockStep at hstep
  cases hpc : call.pc with
  | waiting | returned result => simp [hpc] at hstep
  | found =>
    simp only [hpc, Option.some.injEq] at hstep
    subst hstep
    exact h.unlockMove hcall htask (.cancel h hcall htask hpc (hguard hpc)) ⟨rfl, rfl, rfl, rfl, (append_nil _).symm⟩
  | canceled =>
    have hcanceled := hok.isCanceled (by simp [hpc])
    simp only [hpc] at hstep
    split_ifs at hstep with hstatus
    · cases hstep
      have hactive := hshape.inactive (by simp [hstatus])
      have hmove : UnlockMove s u call task .sending .canceling task.isCanceled [] := by
        refine .later h hcall htask ?_ ?_ (fun _ => .inl rfl) { hshape with
          active := by simp [hactive]
          running := nofun
          canceling := fun _ => hcanceled
          failed := nofun } ?_ ?_ ?_ ?_ ?_ ?_ <;> simp [hpc, hstatus]
      exact h.unlockMove hcall htask hmove ⟨rfl, rfl, rfl, rfl, (append_nil _).symm⟩
    · cases hstep
      have hmove : UnlockMove s u call task (.removing (some false)) task.status task.isCanceled [] := by
        refine .later h hcall htask ?_ ?_ ?_ hshape Iff.rfl ?_ ?_ ?_ ?_ ?_ <;>
          simp [hpc, hstatus, UnlockPc.cancels]
      exact h.unlockMove hcall htask hmove ⟨rfl, rfl, (set_self htask).symm, rfl, (append_nil _).symm⟩
  | sending =>
    simp only [hpc, Option.some.injEq] at hstep
    subst hstep
    have hnone : s.answerTo (.cancel u call.task) = none := by
      unfold State.answerTo
      rw [map_eq_none_iff, find?_eq_none]
      intro reply hreply heq
      obtain ⟨⟨m, hm, hsender⟩, -⟩ := h.replies reply hreply
      obtain ⟨y, hy, hrec⟩ := h.messages m hm
      obtain ⟨c, hc, -, hsent, -⟩ := hrec.call u call.task (hsender.trans (by simpa using heq))
      obtain rfl : c = call := Option.some.inj (hc.symm.trans hcall)
      simp [hpc] at hsent
    have hmove : UnlockMove s u call task .waiting task.status task.isCanceled
        [⟨.cancel u call.task, .delete task.key task.version⟩] := by
      refine ⟨id, ?_, fun _ => hok.cancels (by rw [hpc]; rfl), hshape, Iff.rfl, fun _ => rfl, by simp [hpc],
        by simp, by simp, fun _ _ _ => .inr (.inr (.inl ⟨rfl, hnone⟩))⟩
      simpa [hpc] using hok.found
    exact h.unlockMove hcall htask hmove ⟨rfl, rfl, (set_self htask).symm, rfl, rfl⟩
  | restoring result =>
    have hstatus := hok.cancels (by rw [hpc]; rfl)
    have hactive := hshape.inactive (by rcases hstatus with hstatus | hstatus <;> simp [hstatus])
    simp only [hpc, LockTask.compareAndSet_eq, Option.some.injEq] at hstep
    subst hstep
    have hmove : UnlockMove s u call task (.removing result)
        (if task.status = .canceling then .suspending else task.status) task.isCanceled [] := by
      refine .later h hcall htask ?_ ?_ ?_ { hshape with
        active := by simp [hactive]
        running := ?_
        canceling := ?_
        failed := ?_ } ?_ ?_ ?_ ?_ ?_ ?_
      all_goals rcases hstatus with hstatus | hstatus
      all_goals simp [hpc, hstatus, UnlockPc.cancels]
      exact hshape.failed hstatus
    exact h.unlockMove hcall htask hmove ⟨rfl, rfl, rfl, rfl, (append_nil _).symm⟩
  | removing result =>
    simp only [hpc, Option.some.injEq] at hstep
    subst hstep
    have hmove : UnlockMove s u call task (.returned result) task.status task.isCanceled [] := by
      refine .later h hcall htask ?_ ?_ ?_ hshape Iff.rfl ?_ ?_ ?_ ?_ ?_ <;>
        simp [hpc, UnlockPc.cancels]
    exact h.unlockMove hcall htask hmove ⟨rfl, rfl, (set_self htask).symm, rfl, (append_nil _).symm⟩

end UnlockSteps

section ServerSteps

variable {s s' : State C K V}

omit [DecidableEq C]

def Request.key : Request K V → K
  | .put key _ _ | .cas key _ _ _ | .delete key _ => key

/-- What is live after a request was live before, or the request has written it. -/
theorem live_execute {server : Table K ℕ V Expiry} {m : Message K V} {key : K} {r : Record ℕ V Expiry}
    (h : (execute server m).1.live Expiry.timedOut key = some r) :
    (∃ v, (execute server m).2 = .written v ∧ key = m.request.key ∧ r.owner = m.sender.task ∧ r.version = v) ∨
      server.live Expiry.timedOut key = some r ∧ (key = m.request.key → match m.request with
        | .put _ _ _ => True
        | .cas _ _ comparedVersion _ => r.version ≠ comparedVersion
        | .delete _ version => r.version ≠ version) := by
  unfold execute at h ⊢
  cases hreq : m.request with
  | put k value ttl =>
    simp only [hreq] at h
    exact (Table.live_writeIf h).imp_right fun hold => ⟨hold.1, fun _ => trivial⟩
  | cas k value comparedVersion ttl =>
    simp only [hreq] at h
    refine (Table.live_writeIf h).imp_right fun hold => ⟨hold.1, ?_⟩
    rintro rfl
    have hany := hold.2 rfl
    simpa [hold.1] using hany
  | delete k version =>
    simp only [hreq] at h
    exact .inr (Table.live_remove h)

theorem execute_fits {server : Table K ℕ V Expiry} {m : Message K V} {task : LockTask C K V}
    (h : task.Awaits m.sender m.request) : Fits m.sender (execute server m).2 := by
  have hwriteIf {p : Bool} {k : K} {o : ℕ} {v : V} {l : Expiry} (a : Answer) (ha : (server.writeIf p k o v l).2 = a) :
      a = .unmet ∨ ∃ n, a = .written n := by
    unfold Table.writeIf at ha
    split_ifs at ha
    · exact .inr ⟨_, ha.symm⟩
    · exact .inl ha.symm
  have hremove {k : K} {n : ℕ} (a : Answer) (ha : (server.remove Expiry.timedOut k n).2 = a) :
      a = .removed ∨ a = .missing := by
    unfold Table.remove at ha
    split at ha
    · exact .inr ha.symm
    · split_ifs at ha
      · exact .inr ha.symm
      · exact .inl ha.symm
  obtain ⟨sender, request⟩ := m
  cases sender with
  | lock i =>
    obtain ⟨-, ttl, rfl⟩ := h
    exact hwriteIf _ rfl
  | extend i a =>
    obtain ⟨-, -, rfl⟩ := h
    exact hwriteIf _ rfl
  | drop i =>
    obtain ⟨-, rfl⟩ := h
    exact hremove _ rfl
  | cancel u i =>
    obtain rfl := h
    exact hremove _ rfl

/-- The state after the server has run a request. -/
def State.serve (s : State C K V) (m : Message K V) : State C K V :=
  { s with server := (execute s.server m).1, replies := s.replies ++ [(m.sender, (execute s.server m).2)] }

variable {m : Message K V} {t : ℕ} {task : LockTask C K V} {key : K} {v : ℕ}

omit [DecidableEq K] in
theorem answerTo_of_fresh (hfresh : ∀ reply ∈ s.replies, reply.1 ≠ m.sender) : s.answerTo m.sender = none := by
  unfold State.answerTo
  rw [map_eq_none_iff, find?_eq_none]
  exact fun reply hreply heq => hfresh reply hreply (of_decide_eq_true heq)

theorem answerTo_serve (hfresh : ∀ reply ∈ s.replies, reply.1 ≠ m.sender) (sender : Sender) :
    (s.serve m).answerTo sender =
      if sender = m.sender then some (execute s.server m).2 else s.answerTo sender := by
  unfold State.answerTo State.serve
  rw [find?_append]
  split_ifs with hsender
  · have hnone : s.replies.find? (fun reply => decide (reply.1 = m.sender)) = none := by
      rw [find?_eq_none]
      exact fun reply hreply heq => hfresh reply hreply (of_decide_eq_true heq)
    simp [hnone, hsender]
  · simp [Ne.symm hsender]

theorem answerTo_eq_none_of_serve (hfresh : ∀ reply ∈ s.replies, reply.1 ≠ m.sender) {sender : Sender}
    (h : (s.serve m).answerTo sender = none) : s.answerTo sender = none := by
  rw [answerTo_serve hfresh] at h
  split_ifs at h
  exact h

theorem claim_serve_of_ne (hfresh : ∀ reply ∈ s.replies, reply.1 ≠ m.sender)
    (hlock : task.pc = .waiting → m.sender ≠ .lock t)
    (hextend : ∀ n, task.run = .waiting n → m.sender ≠ .extend t task.attempt)
    (hdrop : ∀ n, task.run = .deleting n → m.sender ≠ .drop t) : (s.serve m).claim t task = s.claim t task := by
  have hrunClaim : (s.serve m).runClaim t task = s.runClaim t task := by
    unfold State.runClaim
    cases hrun : task.run with
    | waiting n => simp [answerTo_serve hfresh, Ne.symm (hextend n hrun)]
    | deleting n => simp [answerTo_serve hfresh, Ne.symm (hdrop n hrun)]
    | settling n extended => cases extended <;> rfl
    | unwinding depth result => cases result <;> rfl
    | _ => rfl
  unfold State.claim
  cases hpc : task.pc with
  | waiting => simp [answerTo_serve hfresh, Ne.symm (hlock hpc)]
  | returned result => cases result <;> simp only [hrunClaim]
  | _ => simp only [hrunClaim]

/-- Who owns the key after a request has been granted it by that request, or has owned it before, under another
version than the one that a cas or a delete of its own carries. -/
theorem Exchange.owned_serve (h : Exchange s) (hm : m ∈ s.requests)
    (hfresh : ∀ reply ∈ s.replies, reply.1 ≠ m.sender) (htask : s.tasks[t]? = some task)
    (howned : (s.serve m).Owned task.key t v) :
    (execute s.server m).2 = .written v ∧ (m.sender = .lock t ∧ task.pc = .waiting ∨
      m.sender = .extend t task.attempt ∧ ∃ n, task.run = .waiting n) ∨
    s.Owned task.key t v ∧ (m.sender.task = t → m.sender ≠ .lock t → v ≠ task.version) := by
  obtain ⟨x, hx, hrec⟩ := h.messages m hm
  have hawaits := hrec.awaits (answerTo_of_fresh hfresh)
  obtain ⟨r, hlive, rfl, rfl⟩ := howned
  obtain ⟨w, hw, hkey, howner, rfl⟩ | ⟨hold, hmatch⟩ := live_execute hlive
  · have hfits : Fits m.sender (execute s.server m).2 := execute_fits hawaits
    cases hx.symm.trans (howner ▸ htask)
    refine .inl ⟨hw, ?_⟩
    cases hsender : m.sender with
    | lock i =>
      rw [hsender] at howner hawaits
      obtain rfl : r.owner = i := howner
      exact .inl ⟨rfl, hawaits.1⟩
    | extend i a =>
      rw [hsender] at howner hawaits
      obtain rfl : r.owner = i := howner
      obtain ⟨rfl, hrun, -⟩ := hawaits
      exact .inr ⟨rfl, hrun⟩
    | drop i | cancel u i =>
      rw [hsender, hw] at hfits
      rcases hfits with hfits | hfits <;> cases hfits
  · refine .inr ⟨⟨r, hold, rfl, rfl⟩, fun hi hlock => ?_⟩
    cases hx.symm.trans (hi ▸ htask)
    have hreq : m.request = .cas task.key task.value task.version EXTEND_TIME_IN_SEC ∨
        m.request = .delete task.key task.version := by
      cases hsender : m.sender <;> rw [hsender] at hi hlock hawaits
      · exact absurd (congrArg Sender.lock hi) hlock
      · exact .inl hawaits.2.2
      · exact .inr hawaits.2
      · exact .inr hawaits
    rcases hreq with hreq | hreq <;> rw [hreq] at hmatch <;> exact hmatch rfl

theorem Exchange.claim_serve (h : Exchange s) (hm : m ∈ s.requests)
    (hfresh : ∀ reply ∈ s.replies, reply.1 ≠ m.sender) (htask : s.tasks[t]? = some task)
    (howned : (s.serve m).Owned task.key t v) : (s.serve m).claim t task = some v := by
  have hnone := answerTo_of_fresh hfresh
  have hshape := h.shape t task htask
  have hanswer : (s.serve m).answerTo m.sender = some (execute s.server m).2 := by
    rw [answerTo_serve hfresh, if_pos rfl]
  rcases h.owned_serve hm hfresh htask howned with ⟨hw, ⟨hsender, hpc⟩ | ⟨hsender, n, hrun⟩⟩ | ⟨hold, hother⟩
  · rw [hsender, hw] at hanswer
    simp [hpc, hanswer, version?]
  · rw [hsender, hw] at hanswer
    rw [claim_of_run hshape (by simp [hrun])]
    simp [hrun, hanswer, version?]
  · have hclaim := h.own t task htask v hold
    -- a request of its own that is under way carries the version of the claim
    have hversion (hidle : task.run ≠ .idle) (hrun : s.runClaim t task = some task.version) : v = task.version := by
      rw [claim_of_run hshape hidle, hrun] at hclaim
      exact (Option.some.inj hclaim).symm
    rw [claim_serve_of_ne hfresh ?_ ?_ ?_]
    · exact hclaim
    · intro hpc hsender
      rw [hsender] at hnone
      simp [hpc, hnone] at hclaim
    · intro n hrun hsender
      rw [hsender] at hnone hother
      exact hother rfl (by simp) (hversion (by simp [hrun]) (by simp [hrun, hnone]))
    · intro n hrun hsender
      rw [hsender] at hnone hother
      exact hother rfl (by simp) (hversion (by simp [hrun]) (by simp [hrun, hnone]))

omit [DecidableEq K] in
theorem Shape.version_of_claim (hshape : Shape task) (hc : task.isCanceled = true)
    (hstatus : task.status = .canceling ∨ task.status = .failed) (hclaim : s.claim t task = some v) :
    task.version = v := by
  have hactive := hshape.inactive (by rcases hstatus with hstatus | hstatus <;> simp [hstatus])
  have hrun : s.runClaim t task = some v := by simpa [hshape.canceled hc] using hclaim
  unfold State.runClaim at hrun
  split at hrun <;> simp_all [RunPc.active]

/-- A cancelled task's key is released unless somebody is about to do it. -/
theorem Exchange.release_serve (h : Exchange s) (hm : m ∈ s.requests)
    (hfresh : ∀ reply ∈ s.replies, reply.1 ≠ m.sender) (htask : s.tasks[t]? = some task)
    (hc : task.isCanceled = true) (howned : (s.serve m).Owned task.key t v) :
    (s.serve m).Canceling t task.status ∨ task.run.drops = true := by
  have hshape := h.shape t task htask
  rcases h.owned_serve hm hfresh htask howned with ⟨-, ⟨-, hpc⟩ | ⟨-, n, hrun⟩⟩ | ⟨hold, hother⟩
  · have hreturned := hshape.canceled hc
    simp [hpc] at hreturned
  · exact .inr (by rw [hrun]; rfl)
  · refine (h.release t task htask hc v hold).imp_left ?_
    rintro ⟨u, call, hcall, rfl, hpc⟩
    refine ⟨u, call, hcall, rfl, hpc.imp_right (Or.imp_right fun ⟨hwaiting, hnone⟩ => ⟨hwaiting, ?_⟩)⟩
    rw [answerTo_serve hfresh, if_neg, hnone]
    intro hsender
    -- the delete has the version of the record
    have hstatus := (h.callOk hcall htask).cancels (by rw [hwaiting]; rfl)
    rw [← hsender] at hother
    exact hother rfl nofun (hshape.version_of_claim hc hstatus (h.own _ task htask v hold)).symm

theorem Exchange.serve (h : Exchange s) (hm : m ∈ s.requests)
    (hfresh : ∀ reply ∈ s.replies, reply.1 ≠ m.sender)
    (hfree : ∀ task ∈ s.tasks[m.sender.task]?, m.sender = .lock m.sender.task → task.timeout ≠ none →
      task.preTask = none → s.server.live Expiry.timedOut task.key = none) : Exchange (s.serve m) := by
  obtain ⟨x, hx, hrec⟩ := h.messages m hm
  have hawaits := hrec.awaits (answerTo_of_fresh hfresh)
  refine .of_fits ?_ (fun reply hreply => ?_) (fun m' hm' => ?_) (fun key r hlive => ?_) (fun u call hcall => ?_)
    h.oneCall fun i y hy => ⟨fun hreply => ?_, h.shape i y hy, fun v hv => h.claim_serve hm hfresh hy hv,
      (h.waits i y hy).mono (List.Subset.refl _), h.canceled i y hy, fun hc v hv => h.release_serve hm hfresh hy hc hv⟩
  · simp only [State.serve, map_append, map_cons, map_nil]
    refine h.senders.append (nodup_singleton _) ?_
    rw [disjoint_singleton]
    intro hmem
    obtain ⟨reply, hreply, heq⟩ := mem_map.mp hmem
    exact hfresh reply hreply heq
  · rcases mem_append.mp hreply with hreply | hreply
    · exact h.replies reply hreply
    · obtain rfl := mem_singleton.mp hreply
      exact ⟨⟨m, hm, rfl⟩, execute_fits hawaits⟩
  · obtain ⟨y, hy, hrec'⟩ := h.messages m' hm'
    refine ⟨y, hy, hrec'.sent, fun hn => hrec'.awaits (answerTo_eq_none_of_serve hfresh hn), fun u i hsender => ?_⟩
    obtain ⟨call, hcall, hcallTask, hsent, hwaiting⟩ := hrec'.call u i hsender
    exact ⟨call, hcall, hcallTask, hsent, fun hn => hwaiting (answerTo_eq_none_of_serve hfresh hn)⟩
  · obtain ⟨w, -, -, howner, -⟩ | ⟨hold, -⟩ := live_execute hlive
    · rw [howner]
      exact (List.getElem?_eq_some_iff.mp hx).1
    · exact h.owners key r hold
  · obtain ⟨y, hy, hok⟩ := h.calls u call hcall
    exact ⟨y, hy, hok.mono (List.Subset.refl _)⟩
  · rcases mem_append.mp hreply with hreply | hreply
    · exact h.refusals i y hreply hy
    · obtain ⟨hsender, hunmet⟩ := Prod.mk.inj (mem_singleton.mp hreply)
      rw [← hsender] at hx hawaits hfree
      cases hx.symm.trans hy
      obtain ⟨-, ttl, hreq⟩ := hawaits
      by_contra hcon
      have hcon := not_or.mp hcon
      have hlive := hfree x hx rfl hcon.1 (not_not.mp hcon.2)
      simp [execute, hreq, Table.create, hlive, Table.writeIf] at hunmet

end ServerSteps

section OtherSteps

variable {s s' : State C K V}

omit [DecidableEq C] [DecidableEq K]

/-- A new call of `lock`: its task has sent nothing and owns nothing. -/
theorem Exchange.append (h : Exchange s) (c : C) (k : K) (v : V) (timeout preTask : Option ℕ)
    (map : C → K → Option ℕ) :
    Exchange { s with
      tasks := s.tasks ++ [⟨c, k, v, 0, .suspending, false, timeout, preTask, .registered, .idle, 0⟩]
      lockTaskMap := map } := by
  refine .of_fits h.senders h.replies (fun m hm => ?_) (fun key r hlive => ?_) (fun u call hcall => ?_) h.oneCall
    fun i x hx => ?_
  · obtain ⟨x, hx, hrec⟩ := h.messages m hm
    exact ⟨x, getElem?_of_isPrefix (prefix_append _ _) hx, hrec.sent, hrec.awaits, hrec.call⟩
  · have := h.owners key r hlive
    simp only [length_append, length_singleton]
    omega
  · obtain ⟨x, hx, hok⟩ := h.calls u call hcall
    exact ⟨x, getElem?_of_isPrefix (prefix_append _ _) hx, hok.mono (List.Subset.refl _)⟩
  · rcases getElem?_snoc hx with hx | ⟨rfl, rfl⟩
    · exact (h.fits hx).keep rfl (List.Subset.refl _) (fun _ => id) id id
    · refine ⟨fun hreply => ?_, by constructor <;> simp [RunPc.active], fun w hw => ?_, ⟨nofun, nofun⟩, nofun, nofun⟩
      · obtain ⟨⟨m, hm, hsender⟩, -⟩ := h.replies _ hreply
        obtain ⟨y, hy, -⟩ := h.messages m hm
        rw [hsender] at hy
        exact absurd (List.getElem?_eq_some_iff.mp hy).1 (Nat.lt_irrefl _)
      · obtain ⟨r, hlive, howner, -⟩ := hw
        exact absurd (howner ▸ h.owners _ r hlive) (Nat.lt_irrefl _)

theorem Exchange.lock [DecidableEq C] [DecidableEq K] (h : Exchange s) (c : C) (k : K) (v : V) (timeout : Option ℕ) :
    Exchange (LockServiceImpl.lock s c k v timeout) := by
  unfold LockServiceImpl.lock
  dsimp only
  split <;> exact h.append c k v timeout _ _

theorem Exchange.unlock (h : Exchange s) {t : ℕ} {task : LockTask C K V} (htask : s.tasks[t]? = some task)
    (hpc : task.pc = .returned true) (hfirst : ∀ call ∈ s.unlocks, call.task ≠ t) (c : C) (k : K) :
    Exchange { s with unlocks := s.unlocks ++ [⟨c, k, t, .found⟩] } := by
  have hcanceled : task.isCanceled = false := by
    cases hc : task.isCanceled with
    | false => rfl
    | true =>
      obtain ⟨call, hcall, hcallTask⟩ := h.canceled t task htask hc
      exact absurd hcallTask (hfirst call hcall)
  refine .of_fits h.senders h.replies (fun m hm => ?_) h.owners (fun u call hcall => ?_)
    (fun u u' call call' hcall hcall' heq => ?_) fun i x hx => ?_
  · obtain ⟨x, hx, hrec⟩ := h.messages m hm
    refine ⟨x, hx, hrec.sent, hrec.awaits, fun u i hsender => ?_⟩
    obtain ⟨call, hcall, hrest⟩ := hrec.call u i hsender
    exact ⟨call, getElem?_of_isPrefix (prefix_append _ _) hcall, hrest⟩
  · rcases getElem?_snoc hcall with hcall | ⟨-, rfl⟩
    · obtain ⟨x, hx, hok⟩ := h.calls u call hcall
      exact ⟨x, hx, hok.mono (List.Subset.refl _)⟩
    · exact ⟨task, htask, hpc, by simp [hcanceled], nofun, nofun⟩
  · rcases getElem?_snoc hcall with hcall | ⟨rfl, rfl⟩ <;> rcases getElem?_snoc hcall' with hcall' | ⟨rfl, rfl⟩
    · exact h.oneCall u u' call call' hcall hcall' heq
    · exact absurd heq (hfirst call (mem_of_getElem? hcall))
    · exact absurd heq.symm (hfirst call' (mem_of_getElem? hcall'))
    · rfl
  · refine (h.fits hx).keep rfl (List.Subset.refl _) (fun _ => id) ?_ ?_
    · rintro ⟨call, hcall, hcallTask⟩
      exact ⟨call, mem_append_left _ hcall, hcallTask⟩
    · rintro ⟨u, call, hcall, hrest⟩
      exact ⟨u, call, getElem?_of_isPrefix (prefix_append _ _) hcall, hrest⟩

theorem Exchange.setServer (h : Exchange s) (server : Table K ℕ V Expiry)
    (hlive : ∀ key r, server.live Expiry.timedOut key = some r → s.server.live Expiry.timedOut key = some r) :
    Exchange { s with server := server } := by
  refine .of_fits h.senders h.replies (fun m hm => ?_) (fun key r hr => h.owners key r (hlive key r hr))
    (fun u call hcall => ?_) h.oneCall fun i x hx => ?_
  · obtain ⟨x, hx, hrec⟩ := h.messages m hm
    exact ⟨x, hx, hrec.sent, hrec.awaits, hrec.call⟩
  · obtain ⟨x, hx, hok⟩ := h.calls u call hcall
    exact ⟨x, hx, hok.mono (List.Subset.refl _)⟩
  · refine (h.fits hx).keep rfl (List.Subset.refl _) (fun v hv => ?_) id id
    obtain ⟨r, hr, hrest⟩ := hv
    exact ⟨r, hlive _ r hr, hrest⟩

theorem Exchange.tick (h : Exchange s) : Exchange { s with server := { s.server with now := s.server.now + 1 } } := by
  refine h.setServer _ fun key r hr => ?_
  obtain ⟨hrec, hnow⟩ := filter_eq_some_iff.mp hr
  refine filter_eq_some_iff.mpr ⟨hrec, ?_⟩
  cases hout : Expiry.timedOut s.server.now r.lease with
  | false => rfl
  | true =>
    have := timedOut_mono _ (s.server.now + 1) r.lease (Nat.le_succ _) hout
    simp [this] at hnow

end OtherSteps

end Goblin.Client.LockServiceImpl
