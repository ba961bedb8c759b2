import Goblin.Client.LockRequests
import Goblin.Client.LockSafety

/-! How a lock that is extended in the background is given back: the map has its task as long as nobody has
unlocked it, and a cancelled task stops with its key deleted. -/
namespace Goblin.Client.LockServiceImpl

open Lib Lib.Lease List Option

variable {C K V : Type} [DecidableEq C] [DecidableEq K]

section Map

/-- The call of `lock` has put its task into the map. -/
def LockTask.entered (task : LockTask C K V) : Bool :=
  match task.pc with
  | .registered => task.preTask.isNone
  | .replacing | .returned false | .failed => false
  | _ => true

/-- What the map has: the tasks that are entered, until they have failed or are unlocked. -/
structure Mapped (s : State C K V) : Prop where
  entered : ∀ (t : ℕ) task, s.tasks[t]? = some task → task.entered = true → task.status ≠ .failed →
    (∀ call ∈ s.unlocks, call.task = t → call.pc.isReturned = false) →
    s.lockTaskMap task.client task.key = some t
  mapped : ∀ c k t, s.lockTaskMap c k = some t → ∃ task, s.tasks[t]? = some task ∧ task.client = c ∧
    task.key = k ∧ task.entered = true ∧ ∀ call ∈ s.unlocks, call.task = t → call.pc.isReturned = false
  pre : ∀ (t : ℕ) task p, s.tasks[t]? = some task → task.preTask = some p → ∃ pre, s.tasks[p]? = some pre ∧
    (task.timeout ≠ none ∨ task.pc = .replacing → pre.status = .failed)
  calls : ∀ call ∈ s.unlocks, ∃ task, s.tasks[call.task]? = some task ∧ call.client = task.client ∧
    call.key = task.key ∧ (call.pc.isReturned = false → s.lockTaskMap call.client call.key = some call.task)

/-- Nothing changes of a task that the map is concerned with. -/
structure Alike (s : State C K V) (task task' : LockTask C K V) : Prop where
  fixed : task'.client = task.client ∧ task'.key = task.key ∧ task'.preTask = task.preTask ∧
    task'.timeout = task.timeout
  entered : task'.entered = task.entered
  failed : task.status = .failed → task'.status = .failed
  replacing : task'.pc = .replacing → task.pc = .replacing ∨
    ∀ p ∈ task.preTask, ∀ pre ∈ s.tasks[p]?, pre.status = .failed

def UnlockCall.view (call : UnlockCall C K) : C × K × ℕ × Bool :=
  (call.client, call.key, call.task, call.pc.isReturned)

variable {s s' : State C K V} {t : ℕ} {task task' : LockTask C K V}

omit [DecidableEq C] [DecidableEq K]

/-- A step of one task, which may change one entry of the map. A task that goes from the entry has failed, and its
calls of `unlock` have returned. -/
theorem Mapped.update (h : Mapped s) {c : C} {k : K}
    (hmap : ∀ c' k', c' = c ∧ k' = k ∨ s'.lockTaskMap c' k' = s.lockTaskMap c' k')
    (hself : s'.tasks[t]? = some task') (hother : ∀ i, i ≠ t → s'.tasks[i]? = s.tasks[i]?)
    (hfailed : ∀ task, s.tasks[t]? = some task → task.status = .failed → task'.status = .failed)
    (hcalls : ∀ call ∈ s'.unlocks, call.task ≠ t → ∃ call' ∈ s.unlocks, call'.view = call.view)
    (hcalls' : ∀ call ∈ s.unlocks, call.task ≠ t → ∃ call' ∈ s'.unlocks, call'.view = call.view)
    (hpre : ∀ p, task'.preTask = some p → ∃ pre, s.tasks[p]? = some pre ∧
      (task'.timeout ≠ none ∨ task'.pc = .replacing → pre.status = .failed))
    (hentered : task'.entered = true → task'.status ≠ .failed →
      (∀ call ∈ s'.unlocks, call.task = t → call.pc.isReturned = false) →
      s'.lockTaskMap task'.client task'.key = some t)
    (hmapped : ∀ c' k', s'.lockTaskMap c' k' = some t → task'.client = c' ∧ task'.key = k' ∧ task'.entered = true ∧
      ∀ call ∈ s'.unlocks, call.task = t → call.pc.isReturned = false)
    (hmine : ∀ call ∈ s'.unlocks, call.task = t → call.client = task'.client ∧ call.key = task'.key ∧
      (call.pc.isReturned = false → s'.lockTaskMap call.client call.key = some t))
    (hnew : ∀ p, s'.lockTaskMap c k = some p → p = t ∨ s.lockTaskMap c k = some p)
    (hgone : ∀ p, s.lockTaskMap c k = some p → p ≠ t → s'.lockTaskMap c k = some p ∨
      (∀ x, s.tasks[p]? = some x → x.status = .failed) ∧
        ∀ call ∈ s.unlocks, call.task = p → call.pc.isReturned = true) : Mapped s' := by
  constructor
  case entered =>
    intro i x hx hent hstatus hopen
    by_cases hi : i = t
    · subst hi
      cases hself.symm.trans hx
      exact hentered hent hstatus hopen
    · have hx' := (hother i hi).symm.trans hx
      have hold := h.entered i x hx' hent hstatus fun call hcall hcallTask => by
        obtain ⟨call', hcall', hview⟩ := hcalls' call hcall (hcallTask ▸ hi)
        simp only [UnlockCall.view, Prod.mk.injEq] at hview
        rw [← hview.2.2.2]
        exact hopen call' hcall' (hview.2.2.1.trans hcallTask)
      rcases hmap x.client x.key with ⟨hc, hk⟩ | hsame
      · rw [hc, hk] at hold ⊢
        exact (hgone i hold hi).resolve_right fun hgone => hstatus (hgone.1 x hx')
      · exact hsame.trans hold
  case mapped =>
    intro c' k' i hi
    by_cases hit : i = t
    · subst hit
      exact ⟨task', hself, hmapped c' k' hi⟩
    · have hold : s.lockTaskMap c' k' = some i := by
        rcases hmap c' k' with ⟨rfl, rfl⟩ | hsame
        · exact (hnew i hi).resolve_left hit
        · exact hsame.symm.trans hi
      obtain ⟨x, hx, hc, hk, hent, hopen⟩ := h.mapped c' k' i hold
      refine ⟨x, (hother i hit).trans hx, hc, hk, hent, fun call hcall hcallTask => ?_⟩
      obtain ⟨call', hcall', hview⟩ := hcalls call hcall (hcallTask ▸ hit)
      simp only [UnlockCall.view, Prod.mk.injEq] at hview
      rw [← hview.2.2.2]
      exact hopen call' hcall' (hview.2.2.1.trans hcallTask)
  case pre =>
    intro i x p hx hp
    obtain ⟨pre, hpre', hstatus⟩ : ∃ pre, s.tasks[p]? = some pre ∧
        (x.timeout ≠ none ∨ x.pc = .replacing → pre.status = .failed) := by
      by_cases hi : i = t
      · subst hi
        cases hself.symm.trans hx
        exact hpre p hp
      · exact h.pre i x p ((hother i hi).symm.trans hx) hp
    by_cases hpt : p = t
    · subst hpt
      exact ⟨task', hself, fun hcase => hfailed pre hpre' (hstatus hcase)⟩
    · exact ⟨pre, (hother p hpt).trans hpre', hstatus⟩
  case calls =>
    intro call hcall
    by_cases hcallTask : call.task = t
    · obtain ⟨hc, hk, hopen⟩ := hmine call hcall hcallTask
      exact ⟨task', hcallTask ▸ hself, hc, hk, fun hret => hcallTask.symm ▸ hopen hret⟩
    · obtain ⟨call', hcall', hview⟩ := hcalls call hcall hcallTask
      simp only [UnlockCall.view, Prod.mk.injEq] at hview
      obtain ⟨hclient, hkey, htask, hreturned⟩ := hview
      obtain ⟨x, hx, hc, hk, hopen⟩ := h.calls call' hcall'
      rw [hclient] at hc hopen
      rw [hkey] at hk hopen
      rw [htask] at hx hopen
      rw [hreturned] at hopen
      refine ⟨x, (hother _ hcallTask).trans hx, hc, hk, fun hret => ?_⟩
      rcases hmap call.client call.key with ⟨hc', hk'⟩ | hsame
      · have hold := hopen hret
        rw [hc', hk'] at hold ⊢
        refine (hgone _ hold hcallTask).resolve_right fun hgone => ?_
        have hdone := hgone.2 call' hcall' htask
        simp [hreturned, hret] at hdone
      · exact hsame.trans (hopen hret)

theorem Mapped.alike (h : Mapped s) (htask : s.tasks[t]? = some task) (htasks : s'.tasks = s.tasks.set t task')
    (halike : Alike s task task') (hmap : s'.lockTaskMap = s.lockTaskMap)
    (hviews : s'.unlocks.map UnlockCall.view = s.unlocks.map UnlockCall.view) : Mapped s' := by
  obtain ⟨hclient, hkey, hpreTask, htimeout⟩ := halike.fixed
  have hview {l l' : List (UnlockCall C K)} (hviews : l'.map UnlockCall.view = l.map UnlockCall.view)
      {call : UnlockCall C K} (hcall : call ∈ l) : ∃ call' ∈ l', call'.view = call.view := by
    have hmem : call.view ∈ l'.map UnlockCall.view := hviews ▸ mem_map_of_mem hcall
    exact mem_map.mp hmem
  have hopen {l l' : List (UnlockCall C K)} (hviews : l'.map UnlockCall.view = l.map UnlockCall.view)
      (hl : ∀ call ∈ l, call.task = t → call.pc.isReturned = false) :
      ∀ call ∈ l', call.task = t → call.pc.isReturned = false := by
    intro call hcall hcallTask
    obtain ⟨call', hcall', heq⟩ := hview hviews.symm hcall
    simp only [UnlockCall.view, Prod.mk.injEq] at heq
    rw [← heq.2.2.2]
    exact hl call' hcall' (heq.2.2.1.trans hcallTask)
  refine h.update (c := task.client) (k := task.key) (fun c k => .inr (by rw [hmap]))
    (htasks ▸ getElem?_set_same htask task') (fun i hi => htasks ▸ getElem?_set_other hi)
    (fun x hx => by cases htask.symm.trans hx; exact halike.failed) (fun _ hcall _ => hview hviews.symm hcall)
    (fun _ hcall _ => hview hviews hcall) (fun p hp => ?_) (fun hent hstatus hcalls => ?_) (fun c k hck => ?_)
    (fun call hcall hcallTask => ?_) (fun p hp => .inr (hmap ▸ hp)) fun p hp _ => .inl (hmap.symm ▸ hp)
  · obtain ⟨pre, hp', hstatus⟩ := h.pre t task p htask (hpreTask ▸ hp)
    refine ⟨pre, hp', fun hcase => ?_⟩
    rcases hcase with hcase | hcase
    · exact hstatus (.inl (htimeout ▸ hcase))
    · rcases halike.replacing hcase with hreplacing | hall
      · exact hstatus (.inr hreplacing)
      · exact hall p (hpreTask ▸ hp) pre hp'
  · rw [hmap, hclient, hkey]
    exact h.entered t task htask (halike.entered ▸ hent) (fun hf => hstatus (halike.failed hf))
      (hopen hviews.symm hcalls)
  · obtain ⟨x, hx, hc, hk, hent, hcalls⟩ := h.mapped c k t (hmap ▸ hck)
    cases htask.symm.trans hx
    exact ⟨hclient.trans hc, hkey.trans hk, halike.entered.trans hent, hopen hviews hcalls⟩
  · obtain ⟨call', hcall', heq⟩ := hview hviews.symm hcall
    simp only [UnlockCall.view, Prod.mk.injEq] at heq
    obtain ⟨x, hx, hc, hk, hret⟩ := h.calls call' hcall'
    rw [heq.2.2.1.trans hcallTask] at hx hret
    cases htask.symm.trans hx
    rw [← heq.1, ← heq.2.1, ← heq.2.2.2, hclient, hkey, hmap]
    exact ⟨hc, hk, hret⟩

theorem map_view_set {u : ℕ} {call call' : UnlockCall C K} (hcall : s.unlocks[u]? = some call)
    (hview : call'.view = call.view) : (s.unlocks.set u call').map UnlockCall.view = s.unlocks.map UnlockCall.view := by
  rw [map_set, hview]
  exact set_self (by rw [getElem?_map, hcall]; rfl)

theorem runStep_alike (hshape : Shape task) (hstep : LockServiceImpl.runStep s t task = some s') :
    ∃ task', s'.tasks = s.tasks.set t task' ∧ s'.lockTaskMap = s.lockTaskMap ∧ s'.unlocks = s.unlocks ∧
      Alike s task task' := by
  have hnot : task.run ≠ .finished → task.status = .failed → False := fun hrun hf => hrun (hshape.failed hf)
  have hcas (expected status : TaskStatus) : ∃ st, task.compareAndSet expected status = { task with status := st } := by
    unfold LockTask.compareAndSet
    split_ifs
    · exact ⟨_, rfl⟩
    · exact ⟨task.status, rfl⟩
  obtain ⟨st, hst⟩ := hcas .running .suspending
  unfold LockServiceImpl.runStep at hstep
  rw [hst] at hstep
  split at hstep
  all_goals try split_ifs at hstep
  all_goals cases hstep
  all_goals
    refine ⟨_, rfl, rfl, rfl, ⟨rfl, rfl, rfl, rfl⟩, rfl, fun hf => (hnot ?_ hf).elim, .inl⟩
    simp [*]

theorem runReply_alike {answer : Answer}
    (hstep : LockServiceImpl.runReply s t task answer = some s') :
    ∃ task', s'.tasks = s.tasks.set t task' ∧ s'.lockTaskMap = s.lockTaskMap ∧ s'.unlocks = s.unlocks ∧
      Alike s task task' := by
  unfold LockServiceImpl.runReply at hstep
  split at hstep
  all_goals cases hstep
  all_goals exact ⟨_, rfl, rfl, rfl, ⟨rfl, rfl, rfl, rfl⟩, rfl, id, .inl⟩

end Map

attribute [local simp] LockTask.entered UnlockPc.isReturned UnlockCall.view

section MapSteps

variable {s s' : State C K V} {t : ℕ} {task : LockTask C K V}

theorem lockTaskMap_setMap (s : State C K V) (c c' : C) (k k' : K) (t : Option ℕ) :
    (s.setMap c k t).lockTaskMap c' k' = if c' = c ∧ k' = k then t else s.lockTaskMap c' k' := by
  unfold State.setMap
  by_cases hc : c' = c
  · by_cases hk : k' = k <;> simp [hc, hk]
  · simp [hc]

theorem Mapped.lock (h : Mapped s) {c : C} {k : K} {v : V} {timeout : Option ℕ}
    (hguard : timeout ≠ none → ∀ p ∈ s.lockTaskMap c k, ∀ pre ∈ s.tasks[p]?, pre.status = .failed)
    (hcallsLt : ∀ call ∈ s.unlocks, call.task < s.tasks.length) :
    Mapped (LockServiceImpl.lock s c k v timeout) := by
  have hnone (c' : C) (k' : K) : s.lockTaskMap c' k' ≠ some s.tasks.length := fun hck => by
    obtain ⟨x, hx, -⟩ := h.mapped c' k' _ hck
    simp at hx
  have hnoCall {P : Prop} (call : UnlockCall C K) (hcall : call ∈ s.unlocks) (hcallTask : call.task = s.tasks.length) :
      P := absurd hcallTask (hcallsLt call hcall).ne
  unfold LockServiceImpl.lock
  cases hmap : s.lockTaskMap c k with
  | none =>
    refine h.update (c := c) (k := k) (fun c' k' => ?_) getElem?_concat_length
      (fun i hi => getElem?_snoc_of_ne hi _) (fun x hx => by simp at hx) (fun call hcall _ => ⟨call, hcall, rfl⟩)
      (fun call hcall _ => ⟨call, hcall, rfl⟩) nofun (fun _ _ _ => ?_) (fun c' k' hck => ?_)
      (fun call hcall hcallTask => hnoCall call hcall hcallTask) (fun p hp => ?_) fun p hp => ?_
    · rw [lockTaskMap_setMap]
      by_cases hck : c' = c ∧ k' = k
      · exact .inl hck
      · exact .inr (if_neg hck)
    · rw [lockTaskMap_setMap, if_pos ⟨rfl, rfl⟩]
    · rw [lockTaskMap_setMap] at hck
      split_ifs at hck with hsame
      · exact ⟨hsame.1.symm, hsame.2.symm, rfl, fun call hcall hcallTask => hnoCall call hcall hcallTask⟩
      · exact absurd hck (hnone c' k')
    · rw [lockTaskMap_setMap, if_pos ⟨rfl, rfl⟩] at hp
      exact .inl (Option.some.inj hp).symm
    · cases hmap.symm.trans hp
  | some p =>
    refine h.update (c := c) (k := k) (fun _ _ => .inr rfl) getElem?_concat_length
      (fun i hi => getElem?_snoc_of_ne hi _) (fun x hx => by simp at hx) (fun call hcall _ => ⟨call, hcall, rfl⟩)
      (fun call hcall _ => ⟨call, hcall, rfl⟩) (fun q hq => ?_) nofun (fun c' k' hck => absurd hck (hnone c' k'))
      (fun call hcall hcallTask => hnoCall call hcall hcallTask) (fun _ => .inr) fun _ hp _ => .inl hp
    cases hq
    obtain ⟨pre, hpre, -⟩ := h.mapped c k p hmap
    refine ⟨pre, hpre, fun hcase => ?_⟩
    rcases hcase with htimeout | hpc
    · exact hguard htimeout p hmap pre hpre
    · cases hpc

theorem Mapped.replace (h : Mapped s) (htask : s.tasks[t]? = some task) (hpc : task.pc = .replacing)
    (hmap : s.lockTaskMap task.client task.key = task.preTask)
    (hreturned : ∀ call ∈ s.unlocks, call.task ∈ task.preTask → call.pc.isReturned = true)
    (hopen : ∀ call ∈ s.unlocks, call.task ≠ t) :
    Mapped ((s.setMap task.client task.key (some t)).setTask t { task with pc := .sending }) := by
  have hlookup (c : C) (k : K) : ((s.setMap task.client task.key (some t)).setTask t
      { task with pc := .sending }).lockTaskMap c k =
        if c = task.client ∧ k = task.key then some t else s.lockTaskMap c k := lockTaskMap_setMap ..
  refine h.update (c := task.client) (k := task.key) (fun c k => ?_)
    (getElem?_set_same htask _) (fun i hi => getElem?_set_other hi)
    (fun x hx => by cases htask.symm.trans hx; exact id) (fun call hcall _ => ⟨call, hcall, rfl⟩)
    (fun call hcall _ => ⟨call, hcall, rfl⟩) (fun p hp => ?_) (fun _ _ _ => ?_) (fun c k hck => ?_)
    (fun call hcall hcallTask => absurd hcallTask (hopen call hcall)) (fun p hp => ?_) fun p hp _ =>
      .inr ⟨fun x hx => ?_, ?_⟩
  · rw [hlookup]
    by_cases hck : c = task.client ∧ k = task.key
    · exact .inl hck
    · exact .inr (if_neg hck)
  · obtain ⟨pre, hpre, hstatus⟩ := h.pre t task p htask hp
    exact ⟨pre, hpre, fun hcase => hstatus (hcase.imp_right nofun)⟩
  · rw [hlookup, if_pos ⟨rfl, rfl⟩]
  · rw [hlookup] at hck
    split_ifs at hck with hsame
    · exact ⟨hsame.1.symm, hsame.2.symm, rfl, fun call hcall hcallTask => absurd hcallTask (hopen call hcall)⟩
    · obtain ⟨x, hx, -, -, hentered, -⟩ := h.mapped c k t hck
      cases htask.symm.trans hx
      simp [LockTask.entered, hpc] at hentered
  · rw [hlookup, if_pos ⟨rfl, rfl⟩] at hp
    exact .inl (Option.some.inj hp).symm
  · -- what the map had is a failed task that nobody is unlocking
    obtain ⟨pre, hpre, hstatus⟩ := h.pre t task p htask (hmap ▸ hp)
    cases hpre.symm.trans hx
    exact hstatus (.inr hpc)
  · rintro call hcall rfl
    exact hreturned call hcall (hmap ▸ hp)

/-- The task of the map goes, as its call of `lock` is refused or its call of `unlock` returns. -/
theorem Mapped.clear (h : Mapped s) {c : C} {k : K} (hmap : s.lockTaskMap c k = some t)
    (hmap' : s'.lockTaskMap = (s.setMap c k none).lockTaskMap) {task' : LockTask C K V}
    (htask : s.tasks[t]? = some task) (htasks : s'.tasks = s.tasks.set t task') (halike : task'.client = task.client ∧
      task'.key = task.key ∧ task'.preTask = task.preTask ∧ task'.timeout = task.timeout ∧ task'.status = task.status)
    (hpc : task'.pc ≠ .replacing) (hcalls : ∀ call ∈ s'.unlocks, call.task ≠ t → call ∈ s.unlocks)
    (hcalls' : ∀ call ∈ s.unlocks, call.task ≠ t → call ∈ s'.unlocks)
    (hgone : task'.entered = true → ∃ call ∈ s'.unlocks, call.task = t ∧ call.pc.isReturned = true)
    (hself : ∀ call ∈ s'.unlocks, call.task = t →
      call.client = task.client ∧ call.key = task.key ∧ call.pc.isReturned = true) : Mapped s' := by
  have hlookup (c' : C) (k' : K) : s'.lockTaskMap c' k' = if c' = c ∧ k' = k then none else s.lockTaskMap c' k' := by
    rw [hmap', lockTaskMap_setMap]
  obtain ⟨hclient, hkey, hpreTask, htimeout, hstatus⟩ := halike
  refine h.update (c := c) (k := k) (fun c' k' => ?_) (htasks ▸ getElem?_set_same htask task')
    (fun i hi => htasks ▸ getElem?_set_other hi) (fun x hx hf => ?_)
    (fun call hcall hne => ⟨call, hcalls call hcall hne, rfl⟩)
    (fun call hcall hne => ⟨call, hcalls' call hcall hne, rfl⟩) (fun p hp => ?_) (fun hentered _ hopen => ?_)
    (fun c' k' hck => ?_) (fun call hcall hcallTask => ?_) (fun p hp => ?_) fun p hp hne => ?_
  · rw [hlookup]
    by_cases hck : c' = c ∧ k' = k
    · exact .inl hck
    · exact .inr (if_neg hck)
  · cases htask.symm.trans hx
    exact hstatus.trans hf
  · obtain ⟨pre, hpre, hfailed⟩ := h.pre t task p htask (hpreTask ▸ hp)
    refine ⟨pre, hpre, fun hcase => hfailed (.inl ?_)⟩
    exact htimeout ▸ hcase.resolve_right hpc
  · obtain ⟨call, hcall, hcallTask, hret⟩ := hgone hentered
    cases hret.symm.trans (hopen call hcall hcallTask)
  · rw [hlookup] at hck
    split_ifs at hck with hsame
    obtain ⟨x, hx, rfl, rfl, -⟩ := h.mapped c' k' t hck
    obtain ⟨y, hy, rfl, rfl, -⟩ := h.mapped c k t hmap
    cases hx.symm.trans hy
    exact absurd ⟨rfl, rfl⟩ hsame
  · obtain ⟨hc, hk, hret⟩ := hself call hcall hcallTask
    exact ⟨hc.trans hclient.symm, hk.trans hkey.symm, fun hret' => by cases hret.symm.trans hret'⟩
  · simp [hlookup] at hp
  · exact absurd (Option.some.inj (hmap.symm.trans hp)).symm hne

theorem Mapped.lockStep (h : Mapped s) (he : Exchange s) (htask : s.tasks[t]? = some task)
    (hguard : task.pc = .replacing → s.lockTaskMap task.client task.key = task.preTask ∧
      ∀ call ∈ s.unlocks, call.task ∈ task.preTask → call.pc.isReturned = true)
    (hstep : LockServiceImpl.lockStep s t task = some s') : Mapped s' := by
  have hshape := he.shape t task htask
  have hnoCall (hpc : task.pc ≠ .returned true) : ∀ call ∈ s.unlocks, call.task ≠ t := by
    rintro call hcall rfl
    obtain ⟨u, hu⟩ := mem_iff_getElem?.mp hcall
    exact hpc (he.callOk hu htask).returned
  have hmapped (hentered : task.entered = true) (hpc : task.pc ≠ .returned true) (hleaving : task.pc ≠ .leaving) :
      s.lockTaskMap task.client task.key = some t := by
    refine h.entered t task htask hentered (hshape.not_failed ?_) fun call hcall hcallTask => ?_
    · simp [hshape.run_idle hpc hleaving]
    · exact absurd hcallTask (hnoCall hpc call hcall)
  have hevolves {task' : LockTask C K V} (htasks : s'.tasks = s.tasks.set t task')
      (hmap : s'.lockTaskMap = s.lockTaskMap) (hunlocks : s'.unlocks = s.unlocks) (halike : Alike s task task') :
      Mapped s' :=
    h.alike htask htasks halike hmap (by rw [hunlocks])
  unfold LockServiceImpl.lockStep at hstep
  cases hpc : task.pc with
  | waiting | returned result | failed => simp [hpc] at hstep
  | thrown => exact absurd hpc hshape.noThrow.1
  | registered =>
    simp only [hpc] at hstep
    cases hp : task.preTask with
    | none =>
      simp only [hp, bind_none, Option.some.injEq] at hstep
      subst hstep
      exact hevolves rfl rfl rfl ⟨⟨rfl, rfl, hp.symm, rfl⟩, by simp [hpc, hp], id, nofun⟩
    | some p =>
      obtain ⟨pre, hpre, hfailed⟩ := h.pre t task p htask hp
      simp only [hp, bind_some, hpre] at hstep
      split_ifs at hstep with hstatus htimeout
      · cases hstep
        refine hevolves rfl rfl rfl ⟨⟨rfl, rfl, hp.symm, rfl⟩, by simp [hpc, hp], id, fun _ => .inr ?_⟩
        intro q hq pre' hpre'
        obtain rfl : p = q := Option.some.inj (hp.symm.trans hq)
        obtain rfl : pre = pre' := Option.some.inj (hpre.symm.trans hpre')
        exact hstatus
      · cases hstep
        exact hevolves rfl rfl rfl ⟨⟨rfl, rfl, hp.symm, rfl⟩, by simp [hpc, hp], id, nofun⟩
      · exact absurd (hfailed (.inl htimeout)) hstatus
  | replacing =>
    simp only [hpc, Option.some.injEq] at hstep
    subst hstep
    obtain ⟨hmap, hreturned⟩ := hguard hpc
    exact h.replace htask hpc hmap hreturned (hnoCall (by simp [hpc]))
  | sending | answered v | leaving =>
    simp only [hpc, Option.some.injEq] at hstep
    subst hstep
    exact hevolves rfl rfl rfl ⟨⟨rfl, rfl, rfl, rfl⟩, by simp [hpc], id, nofun⟩
  | refused =>
    simp only [hpc, if_pos (hshape.refused hpc), Option.some.injEq] at hstep
    subst hstep
    have hmap := hmapped (by simp [hpc]) (by simp [hpc]) (by simp [hpc])
    refine h.clear hmap rfl htask rfl ⟨rfl, rfl, rfl, rfl, rfl⟩ nofun (fun _ hcall _ => hcall)
      (fun _ hcall _ => hcall) nofun
      fun call hcall hcallTask => ?_
    exact absurd hcallTask (hnoCall (by simp [hpc]) call hcall)
  | locked =>
    have hmap := hmapped (by simp [hpc]) (by simp [hpc]) (by simp [hpc])
    simp only [hpc] at hstep
    split_ifs at hstep with htimeout hpre
    · cases hstep
      exact hevolves rfl rfl rfl ⟨⟨rfl, rfl, rfl, rfl⟩, by simp [hpc], id, nofun⟩
    · cases hstep
      refine hevolves rfl ?_ rfl ⟨⟨rfl, rfl, rfl, rfl⟩, by simp [hpc], id, nofun⟩
      funext c k
      change (s.setMap task.client task.key (some t)).lockTaskMap c k = s.lockTaskMap c k
      rw [lockTaskMap_setMap]
      split_ifs with hck
      · rw [hck.1, hck.2, hmap]
      · rfl
    · cases hstep
      exact hevolves rfl rfl rfl ⟨⟨rfl, rfl, rfl, rfl⟩, by simp [hpc], id, nofun⟩

omit [DecidableEq C] [DecidableEq K] in
theorem Mapped.lockReply (h : Mapped s) (htask : s.tasks[t]? = some task) {answer : Answer}
    (hstep : LockServiceImpl.lockReply s t task answer = some s') : Mapped s' := by
  unfold LockServiceImpl.lockReply at hstep
  split at hstep
  next v hpc =>
    cases hstep
    exact h.alike htask rfl ⟨⟨rfl, rfl, rfl, rfl⟩, by simp [hpc], id, nofun⟩ rfl rfl
  next hpc =>
    cases hstep
    exact h.alike htask rfl ⟨⟨rfl, rfl, rfl, rfl⟩, by simp [hpc], id, nofun⟩ rfl rfl
  next => cases hstep

omit [DecidableEq C] [DecidableEq K] in
theorem Mapped.unlockMove (h : Mapped s) {u : ℕ} {call call' : UnlockCall C K} (hcall : s.unlocks[u]? = some call)
    (htask : s.tasks[call.task]? = some task) {status : TaskStatus} {isCanceled : Bool}
    (hmap : s'.lockTaskMap = s.lockTaskMap)
    (htasks : s'.tasks = s.tasks.set call.task { task with status := status, isCanceled := isCanceled })
    (hunlocks : s'.unlocks = s.unlocks.set u call') (hview : call'.view = call.view)
    (hfailed : task.status = .failed → status = .failed) : Mapped s' := by
  refine h.alike htask htasks ⟨⟨rfl, rfl, rfl, rfl⟩, rfl, hfailed, .inl⟩ hmap ?_
  rw [hunlocks, map_view_set hcall hview]

theorem Mapped.unlockStep (h : Mapped s) (he : Exchange s) {u : ℕ} {call : UnlockCall C K}
    (hcall : s.unlocks[u]? = some call) (htask : s.tasks[call.task]? = some task)
    (hstep : LockServiceImpl.unlockStep s u call task = some s') : Mapped s' := by
  unfold LockServiceImpl.unlockStep at hstep
  cases hpc : call.pc with
  | waiting | returned result => simp [hpc] at hstep
  | found =>
    simp only [hpc, Option.some.injEq] at hstep
    subst hstep
    exact h.unlockMove hcall htask rfl rfl rfl (by simp [hpc]) id
  | canceled =>
    simp only [hpc] at hstep
    split_ifs at hstep with hstatus
    · cases hstep
      exact h.unlockMove hcall htask rfl rfl rfl (by simp [hpc])
        (by simp [hstatus])
    · cases hstep
      exact h.unlockMove hcall htask rfl (set_self htask).symm rfl
        (by simp [hpc]) id
  | sending =>
    simp only [hpc, Option.some.injEq] at hstep
    subst hstep
    exact h.unlockMove hcall htask rfl (set_self htask).symm rfl
      (by simp [hpc]) id
  | restoring result =>
    simp only [hpc, LockTask.compareAndSet_eq, Option.some.injEq] at hstep
    subst hstep
    exact h.unlockMove hcall htask rfl rfl rfl (by simp [hpc])
      fun hf => by simp [hf]
  | removing result =>
    simp only [hpc, Option.some.injEq] at hstep
    subst hstep
    obtain ⟨x, hx, hclient, hkey, hopen⟩ := h.calls call (mem_of_getElem? hcall)
    obtain rfl : x = task := Option.some.inj (hx.symm.trans htask)
    have hmap := hopen (by simp [hpc])
    refine h.clear hmap rfl htask (set_self htask).symm ⟨rfl, rfl, rfl, rfl, rfl⟩ ?_ (fun c hc hne => ?_)
      (fun c hc hne => ?_) (fun _ => ?_) fun c hc hcTask => ?_
    · simp [(he.callOk hcall htask).returned]
    · exact (mem_or_eq_of_mem_set hc).resolve_right fun heq => hne (by rw [heq])
    · obtain ⟨j, hj⟩ := mem_iff_getElem?.mp hc
      have hju : j ≠ u := by
        rintro rfl
        cases hj.symm.trans hcall
        exact hne rfl
      exact mem_of_getElem? ((getElem?_set_other hju).trans hj)
    · exact ⟨_, List.mem_set (List.getElem?_eq_some_iff.mp hcall).1 _, rfl, rfl⟩
    · obtain ⟨j, hj⟩ := mem_iff_getElem?.mp hc
      by_cases hju : j = u
      · subst hju
        cases (getElem?_set_same hcall _).symm.trans hj
        exact ⟨hclient, hkey, rfl⟩
      · exact absurd (he.oneCall j u c call ((getElem?_set_other hju).symm.trans hj) hcall hcTask) hju

omit [DecidableEq C] [DecidableEq K] in
theorem Mapped.unlockReply (h : Mapped s) {u : ℕ} {call : UnlockCall C K} (hcall : s.unlocks[u]? = some call)
    (htask : s.tasks[call.task]? = some task) {answer : Answer}
    (hstep : LockServiceImpl.unlockReply s u call answer = some s') : Mapped s' := by
  have hgoes (hpc : call.pc = .waiting) (result : Option Bool) :
      Mapped (s.setUnlock u { call with pc := .restoring result }) :=
    h.unlockMove hcall htask rfl (set_self htask).symm rfl
      (by simp [hpc]) id
  unfold LockServiceImpl.unlockReply at hstep
  split at hstep
  next hpc =>
    cases hstep
    exact hgoes hpc _
  next hpc =>
    cases hstep
    exact hgoes hpc _
  next hpc =>
    cases hstep
    exact hgoes hpc _
  next => cases hstep

omit [DecidableEq C] [DecidableEq K] in
theorem Mapped.unlock (h : Mapped s) {c : C} {k : K} (hmap : s.lockTaskMap c k = some t) :
    Mapped { s with unlocks := s.unlocks ++ [⟨c, k, t, .found⟩] } := by
  obtain ⟨task, htask, hclient, hkey, hentered, hopen⟩ := h.mapped c k t hmap
  have hcases {call : UnlockCall C K} (hcall : call ∈ s.unlocks ++ [⟨c, k, t, .found⟩]) :
      call ∈ s.unlocks ∨ call = ⟨c, k, t, .found⟩ := by simpa using hcall
  have hopen' : ∀ call ∈ s.unlocks ++ [⟨c, k, t, .found⟩], call.task = t → call.pc.isReturned = false := by
    intro call hcall hcallTask
    rcases hcases hcall with hcall | rfl
    · exact hopen call hcall hcallTask
    · rfl
  refine h.update (c := c) (k := k) (fun _ _ => .inr rfl) htask (fun _ _ => rfl)
    (fun x hx => by cases htask.symm.trans hx; exact id)
    (fun call hcall hne => ?_) (fun call hcall _ => ⟨call, mem_append_left _ hcall, rfl⟩)
    (fun p hp => h.pre t task p htask hp) (fun _ _ _ => hclient.symm ▸ hkey.symm ▸ hmap) (fun c' k' hck => ?_)
    (fun call hcall hcallTask => ?_) (fun _ => .inr) fun _ hp _ => .inl hp
  · rcases hcases hcall with hcall | rfl
    · exact ⟨call, hcall, rfl⟩
    · exact absurd rfl hne
  · obtain ⟨x, hx, hc, hk, -⟩ := h.mapped c' k' t hck
    cases htask.symm.trans hx
    exact ⟨hc, hk, hentered, hopen'⟩
  · rcases hcases hcall with hcall | rfl
    · obtain ⟨x, hx, hc, hk, hret⟩ := h.calls call hcall
      rw [hcallTask] at hx hret
      cases htask.symm.trans hx
      exact ⟨hc, hk, hret⟩
    · exact ⟨hclient.symm, hkey.symm, fun _ => hmap⟩

end MapSteps

section Runs

variable {s s' : State C K V} {a : Act C K V} {t : ℕ} {task : LockTask C K V}

/-- The server answers, and the calls of `lock` and `unlock` do not get into each other's way. -/
def Admits (s : State C K V) (a : Act C K V) : Prop := Answers s a ∧ Undisturbed s a

instance (s : State C K V) (a : Act C K V) : Decidable (Admits s a) :=
  inferInstanceAs (Decidable (Answers s a ∧ Undisturbed s a))

/-- What every step of such a run keeps. -/
structure Releasing (s : State C K V) : Prop where
  exchange : Exchange s
  mapped : Mapped s

omit [DecidableEq C] [DecidableEq K] in
theorem Exchange.call_task_lt (h : Exchange s) {call : UnlockCall C K} (hcall : call ∈ s.unlocks) :
    call.task < s.tasks.length := by
  obtain ⟨u, hu⟩ := mem_iff_getElem?.mp hcall
  obtain ⟨x, hx, -⟩ := h.calls u call hu
  exact (List.getElem?_eq_some_iff.mp hx).1

omit [DecidableEq C] [DecidableEq K] in
theorem Mapped.of_same (h : Mapped s) (htasks : s'.tasks = s.tasks) (hmap : s'.lockTaskMap = s.lockTaskMap)
    (hunlocks : s'.unlocks = s.unlocks) : Mapped s' :=
  ⟨htasks ▸ hmap ▸ hunlocks ▸ h.entered, htasks ▸ hmap ▸ hunlocks ▸ h.mapped, htasks ▸ h.pre,
    htasks ▸ hmap ▸ hunlocks ▸ h.calls⟩

theorem Releasing.step (h : Releasing s) (hG : Admits s a) (hstep : LockServiceImpl.step s a = some s') :
    Releasing s' := by
  obtain ⟨he, hm⟩ := h
  obtain ⟨hanswers, hguard⟩ := hG
  cases a with
  | lock c k v timeout =>
    cases hstep
    exact ⟨he.lock c k v timeout, hm.lock hguard fun call hcall => he.call_task_lt hcall⟩
  | lockStep t =>
    obtain ⟨task, htask, hstep⟩ := bind_eq_some_iff.mp hstep
    exact ⟨he.lockStep htask hstep, hm.lockStep he htask (hguard task htask) hstep⟩
  | lockReply t j =>
    obtain ⟨task, htask, hstep⟩ := bind_eq_some_iff.mp hstep
    obtain ⟨reply, hreply, hstep⟩ := bind_eq_some_iff.mp hstep
    split_ifs at hstep with hsender
    have hmem : (.lock t, reply.2) ∈ s.replies := by
      rw [← hsender]
      exact mem_of_getElem? hreply
    exact ⟨he.lockReply htask hmem hstep, hm.lockReply htask hstep⟩
  | lockTimeout t | unlockTimeout u | runTimeout t => exact hanswers.elim
  | unlock c k =>
    cases hmap : s.lockTaskMap c k with
    | none =>
      simp only [LockServiceImpl.step, hmap, Option.some.injEq] at hstep
      exact hstep ▸ ⟨he, hm⟩
    | some t =>
      simp only [LockServiceImpl.step, hmap, Option.some.injEq] at hstep
      subst hstep
      obtain ⟨⟨task, htask, hpc⟩, hreturned⟩ := hguard t hmap
      obtain ⟨-, -, -, -, -, hopen⟩ := hm.mapped c k t hmap
      refine ⟨he.unlock htask hpc (fun call hcall hcallTask => ?_) c k, hm.unlock hmap⟩
      cases (hreturned call hcall hcallTask).symm.trans (hopen call hcall hcallTask)
  | unlockStep u =>
    obtain ⟨call, hcall, hstep⟩ := bind_eq_some_iff.mp hstep
    obtain ⟨task, htask, hstep⟩ := bind_eq_some_iff.mp hstep
    exact ⟨he.unlockStep hcall htask (fun hpc => hguard call hcall hpc task htask) hstep,
      hm.unlockStep he hcall htask hstep⟩
  | unlockReply u j =>
    obtain ⟨call, hcall, hstep⟩ := bind_eq_some_iff.mp hstep
    obtain ⟨reply, hreply, hstep⟩ := bind_eq_some_iff.mp hstep
    split_ifs at hstep with hsender
    have hmem : (.cancel u call.task, reply.2) ∈ s.replies := by
      rw [← hsender]
      exact mem_of_getElem? hreply
    obtain ⟨task, htask, -⟩ := he.calls u call hcall
    exact ⟨he.unlockReply hcall hmem hstep, hm.unlockReply hcall htask hstep⟩
  | runStep t =>
    obtain ⟨task, htask, hstep⟩ := bind_eq_some_iff.mp hstep
    obtain ⟨task', htasks, hmap, hunlocks, halike⟩ := runStep_alike (he.shape t task htask) hstep
    exact ⟨he.runStep htask (hguard task htask) hstep,
      hm.alike htask htasks halike hmap (by rw [hunlocks])⟩
  | runReply t j =>
    obtain ⟨task, htask, hstep⟩ := bind_eq_some_iff.mp hstep
    obtain ⟨reply, hreply, hstep⟩ := bind_eq_some_iff.mp hstep
    split_ifs at hstep with hsender
    obtain ⟨task', htasks, hmap, hunlocks, halike⟩ := runReply_alike hstep
    exact ⟨he.runReply htask (mem_of_getElem? hreply) hsender hstep,
      hm.alike htask htasks halike hmap (by rw [hunlocks])⟩
  | serve i =>
    obtain ⟨m, hmsg, rfl⟩ := map_eq_some_iff.mp hstep
    exact ⟨he.serve (mem_of_getElem? hmsg) (hanswers m hmsg) (hguard m hmsg), hm.of_same rfl rfl rfl⟩
  | serveOther =>
    cases hstep
    exact ⟨he.setServer _ fun _ _ => id, hm.of_same rfl rfl rfl⟩
  | tick =>
    cases hstep
    exact ⟨he.tick, hm.of_same rfl rfl rfl⟩

omit [DecidableEq C] [DecidableEq K] in
theorem Releasing.initial : Releasing ({} : State C K V) := by
  constructor <;> constructor <;> simp [State.Owned, Table.live]

end Runs

section Release

/-- The steps that a call of `unlock` has left. -/
def UnlockPc.rank : UnlockPc → ℕ
  | .found => 6
  | .canceled => 5
  | .sending => 4
  | .waiting => 3
  | .restoring _ => 2
  | .removing _ => 1
  | .returned _ => 0

/-- The server still has to answer this request. -/
def State.Pending (s : State C K V) (sender : Sender) : Prop :=
  s.answerTo sender = none ∧ ∃ m ∈ s.requests, m.sender = sender

/-- The background task stops: its own steps take it nearer to the end, and unless it is there already it has
such a step or the server has one. -/
structure Stops (s : State C K V) (t : ℕ) (task : LockTask C K V) : Prop where
  lowers : ∀ a s', (a = .runStep t ∨ ∃ j, a = .runReply t j) → step s a = some s' →
    ∃ task', s'.tasks[t]? = some task' ∧ task'.run.rank < task.run.rank
  goes : task.run.rank ≠ 0 → (∃ s', step s (.runStep t) = some s') ∨ (∃ j s', step s (.runReply t j) = some s') ∨
    s.Pending (.extend t task.attempt) ∨ s.Pending (.drop t)

/-- The same for a call of `unlock`. -/
structure Returns (s : State C K V) (u : ℕ) (call : UnlockCall C K) : Prop where
  lowers : ∀ a s', (a = .unlockStep u ∨ ∃ j, a = .unlockReply u j) → step s a = some s' →
    ∃ call', s'.unlocks[u]? = some call' ∧ call'.pc.rank < call.pc.rank
  goes : call.pc.rank ≠ 0 → (∃ s', step s (.unlockStep u) = some s') ∨
    (∃ j s', step s (.unlockReply u j) = some s') ∨ s.Pending (.cancel u call.task)

/-- The holder of a lock that is extended finds its task in the map; its call of `unlock` returns with the task
cancelled, which then stops, and when it has stopped the key is no longer its own. The map has no task of a
failed call of `lock`, and a put for a free key is not refused. -/
structure Releasable (s : State C K V) : Prop where
  found : ∀ (t : ℕ) task v, s.tasks[t]? = some task → task.timeout = none → task.pc = .returned true →
    task.isCanceled = false → s.Owned task.key t v → s.lockTaskMap task.client task.key = some t
  returns : ∀ (u : ℕ) call, s.unlocks[u]? = some call → Returns s u call
  canceled : ∀ call ∈ s.unlocks, call.pc.isReturned = true → ∀ task ∈ s.tasks[call.task]?,
    task.isCanceled = true ∧ (task.run.rank = 0 → ∀ v, ¬ s.Owned task.key call.task v)
  stops : ∀ (t : ℕ) task, s.tasks[t]? = some task → task.isCanceled = true → Stops s t task
  failed : ∀ c k t, s.lockTaskMap c k = some t → ∃ task, s.tasks[t]? = some task ∧
    task.pc ≠ .returned false ∧ task.pc ≠ .failed
  granted : ∀ m ∈ s.requests, ∀ t, m.sender = .lock t → s.answerTo m.sender = none →
    s.server.live Expiry.timedOut m.request.key = none → ∃ v, (execute s.server m).2 = .written v

variable {s s' : State C K V} {t : ℕ} {task : LockTask C K V}

section Rank

omit [DecidableEq C] [DecidableEq K]

theorem runStep_lowers (hc : task.isCanceled = true) (htask : s.tasks[t]? = some task)
    (hstep : runStep s t task = some s') : ∃ task', s'.tasks[t]? = some task' ∧ task'.run.rank < task.run.rank := by
  unfold runStep at hstep
  split at hstep
  all_goals try split_ifs at hstep
  all_goals cases hstep
  all_goals refine ⟨_, getElem?_set_same htask _, ?_⟩
  all_goals simp_all [RunPc.rank, RETRY_TIMES]
  all_goals omega

theorem runReply_lowers (htask : s.tasks[t]? = some task) {answer : Answer}
    (hstep : runReply s t task answer = some s') :
    ∃ task', s'.tasks[t]? = some task' ∧ task'.run.rank < task.run.rank := by
  unfold runReply at hstep
  split at hstep
  all_goals cases hstep
  all_goals refine ⟨_, getElem?_set_same htask _, ?_⟩
  all_goals simp [*, RunPc.rank, RETRY_TIMES]
  all_goals omega

theorem exists_reply {sender : Sender} (h : ¬ s.Pending sender) (hm : ∃ m ∈ s.requests, m.sender = sender) :
    ∃ (j : ℕ) (answer : Answer), s.replies[j]? = some (sender, answer) := by
  cases hanswer : s.answerTo sender with
  | none => exact absurd ⟨hanswer, hm⟩ h
  | some answer =>
    obtain ⟨reply, hfind, rfl⟩ := map_eq_some_iff.mp hanswer
    obtain ⟨j, hj⟩ := mem_iff_getElem?.mp (mem_of_find?_eq_some hfind)
    have hsender : reply.1 = sender := by simpa using find?_some hfind
    exact ⟨j, reply.2, hsender ▸ hj⟩

theorem runStep_enabled (hrank : task.run.rank ≠ 0) (hwaiting : ∀ n, task.run ≠ .waiting n)
    (hdeleting : ∀ n, task.run ≠ .deleting n) : ∃ s', runStep s t task = some s' := by
  unfold runStep
  cases hrun : task.run with
  | idle | finished => simp [hrun, RunPc.rank] at hrank
  | waiting n => exact absurd hrun (hwaiting n)
  | deleting n => exact absurd hrun (hdeleting n)
  | extending n =>
    cases n with
    | zero => exact ⟨_, rfl⟩
    | succ n =>
      dsimp only
      split_ifs <;> exact ⟨_, rfl⟩
  | unwinding depth result => cases depth <;> exact ⟨_, rfl⟩
  | _ => exact ⟨_, rfl⟩

end Rank

theorem Exchange.stops (h : Exchange s) (htask : s.tasks[t]? = some task) (hc : task.isCanceled = true) :
    Stops s t task where
  lowers a s' ha hstep := by
    rcases ha with rfl | ⟨j, rfl⟩
    · obtain ⟨x, hx, hstep⟩ := bind_eq_some_iff.mp hstep
      obtain rfl : x = task := Option.some.inj (hx.symm.trans htask)
      exact runStep_lowers hc htask hstep
    · obtain ⟨x, hx, hstep⟩ := bind_eq_some_iff.mp hstep
      obtain rfl : x = task := Option.some.inj (hx.symm.trans htask)
      obtain ⟨reply, -, hstep⟩ := bind_eq_some_iff.mp hstep
      split_ifs at hstep
      exact runReply_lowers htask hstep
  goes hrank := by
    have hwaits := h.waits t task htask
    have hreply {j : ℕ} {sender : Sender} {answer : Answer} (hj : s.replies[j]? = some (sender, answer))
        (hsender : sender = .extend t task.attempt ∨ sender = .drop t)
        (hstep : ∃ s', LockServiceImpl.runReply s t task answer = some s') :
        ∃ j s', LockServiceImpl.step s (.runReply t j) = some s' := by
      obtain ⟨s', hs'⟩ := hstep
      refine ⟨j, s', ?_⟩
      simp only [LockServiceImpl.step, htask, hj, bind_eq_bind, bind_some, if_pos hsender, hs']
    by_cases hw : ∃ n, task.run = .waiting n
    · obtain ⟨n, hrun⟩ := hw
      by_cases hpending : s.Pending (.extend t task.attempt)
      · exact .inr (.inr (.inl hpending))
      · obtain ⟨j, answer, hj⟩ := exists_reply hpending (hwaits.extend n hrun)
        refine .inr (.inl (hreply hj (.inl rfl) ?_))
        rcases (h.replies _ (mem_of_getElem? hj)).2 with rfl | ⟨v, rfl⟩ <;>
          simp [LockServiceImpl.runReply, hrun]
    · by_cases hd : ∃ n, task.run = .deleting n
      · obtain ⟨n, hrun⟩ := hd
        by_cases hpending : s.Pending (.drop t)
        · exact .inr (.inr (.inr hpending))
        · obtain ⟨j, answer, hj⟩ := exists_reply hpending (hwaits.drop n hrun)
          refine .inr (.inl (hreply hj (.inr rfl) ?_))
          rcases (h.replies _ (mem_of_getElem? hj)).2 with rfl | rfl <;>
            simp [LockServiceImpl.runReply, hrun]
      · obtain ⟨s', hs'⟩ := runStep_enabled (s := s) (t := t) hrank (not_exists.mp hw) (not_exists.mp hd)
        exact .inl ⟨s', by simp only [LockServiceImpl.step, htask, bind_some, hs']⟩

theorem Exchange.returns (h : Exchange s) {u : ℕ} {call : UnlockCall C K} (hcall : s.unlocks[u]? = some call) :
    Returns s u call := by
  obtain ⟨task, htask, hok⟩ := h.calls u call hcall
  have hset (call' : UnlockCall C K) : (s.unlocks.set u call')[u]? = some call' := by
    simp [(List.getElem?_eq_some_iff.mp hcall).1]
  constructor
  case lowers =>
    intro a s' ha hstep
    rcases ha with rfl | ⟨j, rfl⟩
    · obtain ⟨c, hc, hstep⟩ := bind_eq_some_iff.mp hstep
      obtain rfl : c = call := Option.some.inj (hc.symm.trans hcall)
      obtain ⟨x, -, hstep⟩ := bind_eq_some_iff.mp hstep
      unfold LockServiceImpl.unlockStep at hstep
      split at hstep
      all_goals try split_ifs at hstep
      all_goals cases hstep
      all_goals exact ⟨_, hset _, by simp [*, UnlockPc.rank]⟩
    · obtain ⟨c, hc, hstep⟩ := bind_eq_some_iff.mp hstep
      obtain rfl : c = call := Option.some.inj (hc.symm.trans hcall)
      obtain ⟨reply, -, hstep⟩ := bind_eq_some_iff.mp hstep
      split_ifs at hstep
      unfold LockServiceImpl.unlockReply at hstep
      split at hstep
      all_goals cases hstep
      all_goals exact ⟨_, hset _, by simp [*, UnlockPc.rank]⟩
  case goes =>
    intro hrank
    by_cases hw : call.pc = .waiting
    · by_cases hpending : s.Pending (.cancel u call.task)
      · exact .inr (.inr hpending)
      · obtain ⟨j, answer, hj⟩ := exists_reply hpending (hok.waits hw)
        obtain ⟨s', hs'⟩ : ∃ s', LockServiceImpl.unlockReply s u call answer = some s' := by
          rcases (h.replies _ (mem_of_getElem? hj)).2 with rfl | rfl <;>
            simp [LockServiceImpl.unlockReply, hw]
        refine .inr (.inl ⟨j, s', ?_⟩)
        simp only [LockServiceImpl.step, hcall, hj, bind_eq_bind, bind_some, if_pos, hs']
    · obtain ⟨s', hs'⟩ : ∃ s', LockServiceImpl.unlockStep s u call task = some s' := by
        unfold LockServiceImpl.unlockStep
        cases hpc : call.pc with
        | waiting => exact absurd hpc hw
        | returned result => simp [hpc, UnlockPc.rank] at hrank
        | canceled =>
          dsimp only
          split_ifs <;> exact ⟨_, rfl⟩
        | _ => exact ⟨_, rfl⟩
      refine .inl ⟨s', ?_⟩
      simp only [LockServiceImpl.step, hcall, htask, bind_eq_bind, bind_some, hs']

theorem Releasing.releasable (h : Releasing s) : Releasable s := by
  obtain ⟨he, hm⟩ := h
  constructor
  case found =>
    intro t task v htask htimeout hpc hc howned
    have hclaim := he.own t task htask v howned
    have hstatus : task.status ≠ .failed := by
      intro hf
      simp [State.claim, State.runClaim, hpc, (he.shape t task htask).failed hf, hf] at hclaim
    refine hm.entered t task htask (by simp [hpc]) hstatus ?_
    rintro call hcall rfl
    obtain ⟨u, hu⟩ := mem_iff_getElem?.mp hcall
    obtain ⟨x, hx, hok⟩ := he.calls u call hu
    obtain rfl : x = task := Option.some.inj (hx.symm.trans htask)
    rw [hok.found.mpr hc]
    rfl
  case returns => exact fun u call hcall => he.returns hcall
  case canceled =>
    intro call hcall hret task htask
    obtain ⟨u, hu⟩ := mem_iff_getElem?.mp hcall
    obtain ⟨x, hx, hok⟩ := he.calls u call hu
    obtain rfl : x = task := Option.some.inj (hx.symm.trans htask)
    have hc : x.isCanceled = true := by
      cases hc : x.isCanceled with
      | true => rfl
      | false => simp [hok.found.mpr hc] at hret
    refine ⟨hc, fun hrank v howned => ?_⟩
    rcases he.release call.task x hx hc v howned with hcanceling | hdrops
    · -- the only call for the task has returned
      rcases he.of_canceling hu hcanceling with ⟨hpc, -⟩ | hpc | ⟨hpc, -⟩ <;>
        simp [hpc] at hret
    · cases hrun : x.run <;> simp [hrun, RunPc.drops, RunPc.rank] at hdrops hrank
  case stops => exact fun t task htask hc => he.stops htask hc
  case failed =>
    intro c k t hmap
    obtain ⟨task, htask, -, -, hentered, -⟩ := hm.mapped c k t hmap
    refine ⟨task, htask, fun hpc => ?_, fun hpc => ?_⟩ <;> simp [hpc] at hentered
  case granted =>
    intro m hmem t hsender hnone hlive
    obtain ⟨x, hx, hrec⟩ := he.messages m hmem
    have hawaits := hrec.awaits hnone
    rw [hsender] at hawaits
    obtain ⟨-, ttl, hreq⟩ := hawaits
    rw [hreq] at hlive
    replace hlive : s.server.live Expiry.timedOut x.key = none := hlive
    exact ⟨_, by simp [execute, hreq, Table.create, Table.writeIf, hlive]; rfl⟩

/-- A lock that is extended can be given back in every run in which the server answers and no call of `lock` or
`unlock` disturbs another. -/
theorem held_lock_releasable {acts : List (Act C K V)} (hG : Meets step Admits {} acts) {s : State C K V}
    (hs : exec step {} acts = some s) : Releasable s :=
  (exec_invariant (fun _ _ _ h hg hstep => h.step hg hstep) Releasing.initial hG hs).releasable

/-- A lock is granted and extended, another thread asks for it in vain, and the holder unlocks. -/
def lockAndRelease : List (Act Bool Unit Unit) :=
  [.lock false () () none] ++ granted 0 0 0 ++
    [.lock false () () none, .lockStep 1, .runStep 0, .runStep 0, .runStep 0, .runStep 0, .runStep 0, .serve 1,
      .runReply 0 1, .runStep 0, .runStep 0, .runStep 0, .unlock false (), .unlockStep 0, .unlockStep 0,
      .unlockStep 0, .serve 2, .unlockReply 0 2, .unlockStep 0, .unlockStep 0, .runStep 0, .runStep 0]

theorem lockAndRelease_releasable : ∃ s : State Bool Unit Unit, exec step {} lockAndRelease = some s ∧
    (s.tasks.map LockTask.run = [.finished, .idle] ∧ (s.server.record ()).isNone = true ∧
      s.lockTaskMap false () = none) ∧ Releasable s := by
  obtain ⟨s, hs, hend⟩ : ∃ s : State Bool Unit Unit, exec step {} lockAndRelease = some s ∧
      s.tasks.map LockTask.run = [.finished, .idle] ∧ (s.server.record ()).isNone = true ∧
        s.lockTaskMap false () = none := exists_exec_of_any (by decide +kernel)
  exact ⟨s, hs, hend, held_lock_releasable (by decide +kernel) hs⟩

/-- While the lock is held, another thread of the same client asks for it with a timeout and is refused. -/
def refusedBeside : List (Act Bool Unit Unit) :=
  [.lock false () () none] ++ granted 0 0 0 ++
    [.lock false () () (some 10), .lockStep 1, .lockStep 1, .serve 1, .lockReply 1 1, .lockStep 1]

/-- The other client asks for a held lock with a timeout and is refused; then the holder unlocks. -/
def refusedElsewhere : List (Act Bool Unit Unit) :=
  [.lock false () () none] ++ granted 0 0 0 ++
    [.lock true () () (some 10), .lockStep 1, .lockStep 1, .serve 1, .lockReply 1 1, .lockStep 1,
      .unlock false (), .unlockStep 0, .unlockStep 0, .unlockStep 0, .serve 2, .unlockReply 0 2, .unlockStep 0,
      .unlockStep 0]

/-- The refused thread has taken the holder's task out of the map, so that `unlock` does nothing; and a refused
client has left its own task there, so that its next call for the key, which is free, returns false. -/
theorem refused_lock_disturbs :
    (∃ s : State Bool Unit Unit, Meets step Answers {} refusedBeside ∧ exec step {} refusedBeside = some s ∧
      (s.tasks.map LockTask.pc = [.returned true, .returned false] ∧ s.Owned () 0 1) ∧
        step s (.unlock false ()) = some s ∧ ¬ Releasable s) ∧
    ∃ s : State Bool Unit Unit, Meets step Answers {} refusedElsewhere ∧ exec step {} refusedElsewhere = some s ∧
      (s.server.record ()).isNone = true ∧ ∃ s', exec step s [.lock true () () none, .lockStep 2] = some s' ∧
        s'.tasks.map LockTask.pc = [.returned true, .returned false, .returned false] := by
  refine ⟨⟨_, by decide +kernel, rfl, ⟨rfl, _, rfl, rfl, rfl⟩, rfl, fun h => ?_⟩,
    _, by decide +kernel, rfl, rfl, _, rfl, rfl⟩
  cases h.found 0 _ 1 rfl rfl rfl rfl ⟨_, rfl, rfl, rfl⟩

end Release

end Goblin.Client.LockServiceImpl
