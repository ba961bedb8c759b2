import Goblin.Lib.Program
import Goblin.Lib.Run

/-! Optimistic concurrency. Programs take turns on one store, one operation at a time. Every change of the
store raises its stamp, and a program changes it only while the stamp is the one it has begun with; all
that it has read by then is still so. -/
namespace Goblin.Lib.Optimistic

open List

variable {Op : Type} {Res : Op → Type} {α β σ : Type}

/-- The program ends here. -/
def Ends (Q : α → Prop) : Program Op Res α → Prop
  | .ret a => Q a
  | .abort => True
  | .call _ _ => False

section Careful

variable (answer : σ → (o : Op) → Res o × σ) (stamp : σ → ℕ)

variable {cur : σ} {P : σ → α → Prop} {p : Program Op Res α}

/-- The stores that a program can meet after `cur`. -/
def View (cur s : σ) : Prop :=
  s = cur ∨ stamp cur < stamp s

/-- Whatever stores it meets after `cur`, the program leaves them as they are; `P` relates its result to
the last one it has met. -/
def Reads (P : σ → α → Prop) : σ → Program Op Res α → Prop
  | cur, .ret a => P cur a
  | _, .abort => True
  | cur, .call o next => ∀ s, View stamp cur s →
    (answer s o).2 = s ∧ Reads P s (next (answer s o).1)

/-- The program only reads, except that it may end with one change `T`, made in `s₀` itself. `Q` relates
its result to `s₀` or to what became of it. -/
def Careful (s₀ : σ) (T : σ → Prop) (Q : σ → α → Prop) : σ → Program Op Res α → Prop
  | _, .ret a => Q s₀ a
  | _, .abort => True
  | cur, .call o next => ∀ s, View stamp cur s →
    (answer s o).2 = s ∧ Careful s₀ T Q s (next (answer s o).1) ∨
      s = s₀ ∧ stamp s < stamp (answer s o).2 ∧ T (answer s o).2 ∧
        Ends (Q (answer s o).2) (next (answer s o).1)

/-- A program that has not read anything yet. -/
def Begins (T : σ → σ → Prop) (Q : σ → α → Prop) : Program Op Res α → Prop
  | .ret a => ∀ s, Q s a
  | .abort => True
  | .call o next => ∀ s, (answer s o).2 = s ∧ Careful answer stamp s (T s) Q s (next (answer s o).1)

variable {answer stamp}

theorem View.of_lt {s s' : σ} (h : View stamp cur s) (hlt : stamp s < stamp s') : View stamp cur s' := by
  rcases h with rfl | hs
  · exact .inr hlt
  · exact .inr (hs.trans hlt)

theorem View.refl (s : σ) : View stamp s s := .inl rfl

theorem View.trans {s s' : σ} (h : View stamp cur s) (h' : View stamp s s') : View stamp cur s' := by
  rcases h' with rfl | hlt
  · exact h
  · exact h.of_lt hlt

/-- A store that is left does not come back. -/
theorem View.eq_of_eq {s s' : σ} (h : View stamp cur s) (h' : View stamp s s') (heq : s' = cur) : s = cur := by
  subst heq
  rcases h with rfl | hlt
  · rfl
  · rcases h' with rfl | hlt'
    · rfl
    · exact absurd (hlt.trans hlt') (lt_irrefl _)

theorem View.eq_of_stamp {s : σ} (h : View stamp cur s) (hs : stamp s = stamp cur) : s = cur :=
  h.resolve_right fun hlt => hlt.ne' hs

theorem Reads.bind {P' : σ → β → Prop} {f : α → Program Op Res β} (hp : Reads answer stamp P cur p)
    (hf : ∀ s a, P s a → Reads answer stamp P' s (f a)) : Reads answer stamp P' cur (p >>= f) := by
  induction p generalizing cur with
  | ret a => exact hf cur a hp
  | abort => trivial
  | call o next ih => exact fun s hs => ⟨(hp s hs).1, ih _ (hp s hs).2⟩

theorem Reads.mono {P' : σ → α → Prop} (hp : Reads answer stamp P cur p) (h : ∀ s a, P s a → P' s a) :
      Reads answer stamp P' cur p := by
  induction p generalizing cur with
  | ret a => exact h cur a hp
  | abort => trivial
  | call o next ih => exact fun s hs => ⟨(hp s hs).1, ih _ (hp s hs).2⟩

/-- A run on its own is the case in which the store never changes. -/
theorem Reads.run {s : σ} {a : α} (hp : Reads answer stamp P cur p) (h : p.run answer cur = some (a, s)) :
      s = cur ∧ P cur a := by
  induction p with
  | ret b =>
    cases h
    exact ⟨rfl, hp⟩
  | abort => cases h
  | call o next ih =>
    obtain ⟨hsame, hnext⟩ := hp cur (.refl cur)
    rw [Program.run_call, hsame] at h
    exact ih _ hnext h

theorem Careful.bind {s₀ : σ} {T : σ → Prop} {Q : σ → β → Prop} {f : α → Program Op Res β}
    (hp : Reads answer stamp P cur p) (hf : ∀ s a, P s a → Careful answer stamp s₀ T Q s (f a)) :
    Careful answer stamp s₀ T Q cur (p >>= f) := by
  induction p generalizing cur with
  | ret a => exact hf cur a hp
  | abort => trivial
  | call o next ih => exact fun s hs => .inl ⟨(hp s hs).1, ih _ (hp s hs).2⟩

end Careful

/-- A request, the number of changes that were made before it began, and what is left of its program. -/
structure Thread (Op : Type) (Res : Op → Type) (α R : Type) where
  request : R
  since : ℕ
  prog : Program Op Res α

/-- `past` keeps the stores before the present one, the oldest first. -/
structure Pool (Op : Type) (Res : Op → Type) (α R σ ι : Type) where
  past : List σ := []
  store : σ
  threads : ι → Option (Thread Op Res α R) := fun _ => none

/-- A thread that is dropped got an error from the store, or its process has died. -/
inductive Act (R ι : Type)
  | begin (i : ι) (r : R)
  | step (i : ι)
  | drop (i : ι)

namespace Pool

variable {R ι : Type} [DecidableEq ι]
variable (answer : σ → (o : Op) → Res o × σ) (stamp : σ → ℕ) (program : R → Program Op Res α)

variable {a : Act R ι} {t : Thread Op Res α R} {i : ι} {as : List (Act R ι)}

def stores (p : Pool Op Res α R σ ι) : List σ := p.past ++ [p.store]

def setThread (p : Pool Op Res α R σ ι) (i : ι) (t : Thread Op Res α R) : Pool Op Res α R σ ι :=
  { p with threads := Function.update p.threads i (some t) }

def setStore (p : Pool Op Res α R σ ι) (s : σ) : Pool Op Res α R σ ι :=
  { p with past := if stamp s = stamp p.store then p.past else p.past ++ [p.store], store := s }

def step (p : Pool Op Res α R σ ι) : Act R ι → Option (Pool Op Res α R σ ι)
  | .begin i r =>
    match p.threads i with
    | none => some (p.setThread i ⟨r, p.past.length, program r⟩)
    | some _ => none
  | .step i =>
    match p.threads i with
    | some ⟨r, since, .call o next⟩ =>
      some ((p.setStore stamp (answer p.store o).2).setThread i ⟨r, since, next (answer p.store o).1⟩)
    | _ => none
  | .drop i => (p.threads i).map fun t => p.setThread i { t with prog := .abort }

/-- A step that changes the store is one of a request that `H` allows in it. -/
def Admits (H : R → σ → Prop) (p : Pool Op Res α R σ ι) : Act R ι → Prop
  | .step i =>
    match p.threads i with
    | some ⟨r, _, .call o _⟩ => stamp (answer p.store o).2 = stamp p.store ∨ H r p.store
    | _ => True
  | _ => True

instance (H : R → σ → Prop) [∀ r s, Decidable (H r s)] (p : Pool Op Res α R σ ι) :
    ∀ a, Decidable (Admits answer stamp H p a)
  | .begin _ _ => isTrue trivial
  | .drop _ => isTrue trivial
  | .step i =>
    match h : p.threads i with
    | none => isTrue (by simp [Admits, h])
    | some ⟨_, _, .ret _⟩ => isTrue (by simp [Admits, h])
    | some ⟨_, _, .abort⟩ => isTrue (by simp [Admits, h])
    | some ⟨r, _, .call o _⟩ =>
      decidable_of_iff (stamp (answer p.store o).2 = stamp p.store ∨ H r p.store) (by simp [Admits, h])

/-- A thread has read nothing, or it is careful after one of the stores that were there since it began, or
it has ended with a result about one of them. -/
structure ThreadOk (T : R → σ → σ → Prop) (Q : R → σ → α → Prop) (p : Pool Op Res α R σ ι)
    (t : Thread Op Res α R) : Prop where
  since_le : t.since ≤ p.past.length
  prog : Begins answer stamp (T t.request) (Q t.request) t.prog ∨
    ∃ n s₀, t.since ≤ n ∧ p.stores[n]? = some s₀ ∧
      ((∃ cur, View stamp cur p.store ∧
          Careful answer stamp s₀ (T t.request s₀) (Q t.request) cur t.prog) ∨
        Ends (Q t.request s₀) t.prog)

/-- The stores have come about by allowed changes, one after the other. -/
structure Inv (H : R → σ → Prop) (T : R → σ → σ → Prop) (Q : R → σ → α → Prop)
    (p : Pool Op Res α R σ ι) : Prop where
  chain : p.stores.IsChain fun s s' => ∃ r, H r s ∧ T r s s'
  threads : ∀ i t, p.threads i = some t → ThreadOk answer stamp T Q p t

variable {answer stamp program} {H : R → σ → Prop} {T : R → σ → σ → Prop} {Q : R → σ → α → Prop}
variable {p p' : Pool Op Res α R σ ι}

section Stores

omit [DecidableEq ι]

@[simp] theorem stores_getElem? : p.stores[p.past.length]? = some p.store := by
  simp [stores]

theorem setStore_self : p.setStore stamp p.store = p := by
  simp [setStore]

theorem stores_setStore {s : σ} (h : stamp p.store < stamp s) :
    (p.setStore stamp s).stores = p.stores ++ [s] := by
  simp [setStore, stores, h.ne']

theorem past_setStore {s : σ} (h : stamp p.store < stamp s) :
    (p.setStore stamp s).past = p.stores := by
  simp [setStore, stores, h.ne']

theorem stores_length : p.stores.length = p.past.length + 1 := by
  simp [stores]

theorem ThreadOk.setStore {t : Thread Op Res α R} (h : ThreadOk answer stamp T Q p t) {s : σ}
    (hs : s = p.store ∨ stamp p.store < stamp s) :
    ThreadOk answer stamp T Q (p.setStore stamp s) t := by
  rcases hs with rfl | hlt
  · rwa [setStore_self]
  · refine ⟨?_, ?_⟩
    · rw [past_setStore hlt, stores_length]
      exact h.since_le.trans (Nat.le_succ _)
    · obtain hbegins | ⟨n, s₀, hn, hs₀, hprog⟩ := h.prog
      · exact .inl hbegins
      · refine .inr ⟨n, s₀, hn, ?_, hprog.imp_left fun ⟨cur, hview, hcur⟩ => ⟨cur, hview.of_lt hlt, hcur⟩⟩
        rw [stores_setStore hlt, List.getElem?_append_left (List.getElem?_eq_some_iff.mp hs₀).1]
        exact hs₀

theorem ThreadOk.call {r : R} {since : ℕ} {o : Op} {next : Res o → Program Op Res α}
    (h : ThreadOk answer stamp T Q p ⟨r, since, .call o next⟩) :
    ((answer p.store o).2 = p.store ∨
        stamp p.store < stamp (answer p.store o).2 ∧ T r p.store (answer p.store o).2) ∧
      ThreadOk answer stamp T Q (p.setStore stamp (answer p.store o).2)
        ⟨r, since, next (answer p.store o).1⟩ := by
  have hsame (hprog : ThreadOk answer stamp T Q p ⟨r, since, next (answer p.store o).1⟩)
      (hs : (answer p.store o).2 = p.store) :
      ThreadOk answer stamp T Q (p.setStore stamp (answer p.store o).2)
        ⟨r, since, next (answer p.store o).1⟩ := by
    rwa [hs, setStore_self]
  obtain hbegins | ⟨n, s₀, hn, hs₀, ⟨cur, hview, hcareful⟩ | hends⟩ := h.prog
  · obtain ⟨hs, hnext⟩ := hbegins p.store
    refine ⟨.inl hs, hsame ⟨h.since_le, .inr ?_⟩ hs⟩
    exact ⟨p.past.length, p.store, h.since_le, stores_getElem?, .inl ⟨p.store, .inl rfl, hnext⟩⟩
  · obtain ⟨hs, hnext⟩ | ⟨rfl, hlt, hT, hends⟩ := hcareful p.store hview
    · refine ⟨.inl hs, hsame ⟨h.since_le, .inr ?_⟩ hs⟩
      exact ⟨n, s₀, hn, hs₀, .inl ⟨p.store, .inl rfl, hnext⟩⟩
    · refine ⟨.inr ⟨hlt, hT⟩, ⟨(h.setStore (.inr hlt)).since_le, .inr ?_⟩⟩
      refine ⟨p.stores.length, _, ?_, ?_, .inr hends⟩
      · rw [stores_length]
        exact h.since_le.trans (Nat.le_succ _)
      · simp [stores_setStore hlt]
  · exact hends.elim

theorem chain_snoc {s : σ} (h : p.stores.IsChain fun s s' => ∃ r, H r s ∧ T r s s')
    (hs : ∃ r, H r p.store ∧ T r p.store s) :
    (p.stores ++ [s]).IsChain fun s s' => ∃ r, H r s ∧ T r s s' := by
  refine isChain_append.mpr ⟨h, isChain_singleton s, fun x hx y hy => ?_⟩
  obtain rfl : p.store = x := by simpa [stores] using hx
  obtain rfl : s = y := by simpa using hy
  exact hs

end Stores

theorem step_cases (h : p.step answer stamp program a = some p') : (∃ i r, a = .begin i r ∧ p.threads i = none ∧
      p' = p.setThread i ⟨r, p.past.length, program r⟩) ∨
    (∃ i r since o next, a = .step i ∧ p.threads i = some ⟨r, since, .call o next⟩ ∧
      p' = (p.setStore stamp (answer p.store o).2).setThread i ⟨r, since, next (answer p.store o).1⟩) ∨
    ∃ i t, a = .drop i ∧ p.threads i = some t ∧ p' = p.setThread i { t with prog := .abort } := by
  cases a with
  | begin i r =>
    cases hi : p.threads i with
    | none => exact .inl ⟨i, r, rfl, hi, by simpa [step, hi, eq_comm] using h⟩
    | some t => simp [step, hi] at h
  | step i =>
    match hi : p.threads i with
    | none => simp [step, hi] at h
    | some ⟨r, since, .ret a⟩ => simp [step, hi] at h
    | some ⟨r, since, .abort⟩ => simp [step, hi] at h
    | some ⟨r, since, .call o next⟩ =>
      exact .inr (.inl ⟨i, r, since, o, next, rfl, hi, by simpa [step, hi, eq_comm] using h⟩)
  | drop i =>
    obtain ⟨t, ht, rfl⟩ := Option.map_eq_some_iff.mp h
    exact .inr (.inr ⟨i, t, rfl, ht, rfl⟩)

theorem ThreadOk.setThread (h : ThreadOk answer stamp T Q p t) (i : ι) (u : Thread Op Res α R) :
      ThreadOk answer stamp T Q (p.setThread i u) t :=
  ⟨h.since_le, h.prog⟩

theorem threads_setThread (ht : ThreadOk answer stamp T Q p t)
    (h : ∀ j u, p.threads j = some u → ThreadOk answer stamp T Q p u) :
    ∀ j u, (p.setThread i t).threads j = some u → ThreadOk answer stamp T Q (p.setThread i t) u := by
  intro j u hu
  by_cases hj : j = i
  · subst hj
    obtain rfl : t = u := by simpa [Pool.setThread] using hu
    exact ht.setThread j t
  · exact (h j u (by simpa [Pool.setThread, hj] using hu)).setThread i t

theorem Inv.begin (h : Inv answer stamp H T Q p) {r : R} (hr : Begins answer stamp (T r) (Q r) (program r)) :
    Inv answer stamp H T Q (p.setThread i ⟨r, p.past.length, program r⟩) :=
  ⟨h.chain, threads_setThread ⟨le_rfl, .inl hr⟩ h.threads⟩

theorem Inv.drop (h : Inv answer stamp H T Q p) (ht : p.threads i = some t) :
      Inv answer stamp H T Q (p.setThread i { t with prog := .abort }) :=
  ⟨h.chain, threads_setThread ⟨(h.threads i t ht).since_le, .inl trivial⟩ h.threads⟩

theorem Inv.op (h : Inv answer stamp H T Q p) {r : R} {since : ℕ} {o : Op} {next : Res o → Program Op Res α}
    (hi : p.threads i = some ⟨r, since, .call o next⟩) (hadmits : Admits answer stamp H p (.step i)) :
    Inv answer stamp H T Q ((p.setStore stamp (answer p.store o).2).setThread i
      ⟨r, since, next (answer p.store o).1⟩) := by
  obtain ⟨hstore, hthread⟩ := (h.threads i _ hi).call
  have hthreads : ∀ j u, (p.setStore stamp (answer p.store o).2).threads j = some u →
      ThreadOk answer stamp T Q (p.setStore stamp (answer p.store o).2) u :=
    fun j u hu => (h.threads j u hu).setStore (hstore.imp_right And.left)
  refine ⟨?_, threads_setThread hthread hthreads⟩
  change (p.setStore stamp (answer p.store o).2).stores.IsChain _
  rcases hstore with hsame | ⟨hlt, hT⟩
  · rw [hsame, setStore_self]
    exact h.chain
  · rw [stores_setStore hlt]
    have hH : stamp (answer p.store o).2 = stamp p.store ∨ H r p.store := by
      simpa [Admits, hi] using hadmits
    exact chain_snoc h.chain ⟨r, hH.resolve_left hlt.ne', hT⟩

theorem Inv.step (hbegins : ∀ r, Begins answer stamp (T r) (Q r) (program r)) (h : Inv answer stamp H T Q p)
    (hadmits : Admits answer stamp H p a) (hs : p.step answer stamp program a = some p') :
      Inv answer stamp H T Q p' := by
  obtain ⟨i, r, rfl, _, rfl⟩ | ⟨i, r, since, o, next, rfl, hi, rfl⟩ | ⟨i, t, rfl, ht, rfl⟩ := step_cases hs
  · exact h.begin (hbegins r)
  · exact h.op hi hadmits
  · exact h.drop ht

omit [DecidableEq ι] in
theorem Inv.initial (s : σ) : Inv answer stamp H T Q ({ store := s } : Pool Op Res α R σ ι) :=
  ⟨isChain_singleton s, nofun⟩

theorem Inv.of_exec (hbegins : ∀ r, Begins answer stamp (T r) (Q r) (program r)) (h : Inv answer stamp H T Q p)
    (hG : Meets (Pool.step answer stamp program) (Admits answer stamp H) p as)
    (hs : exec (Pool.step answer stamp program) p as = some p') : Inv answer stamp H T Q p' :=
  exec_invariant (fun _ _ _ hp hadmits hstep => hp.step hbegins hadmits hstep) h hG hs

theorem Inv.stores_isPrefix (h : Inv answer stamp H T Q p) (hs : p.step answer stamp program a = some p') :
      p.stores <+: p'.stores := by
  obtain ⟨i, r, rfl, _, rfl⟩ | ⟨i, r, since, o, next, rfl, hi, rfl⟩ | ⟨i, t, rfl, ht, rfl⟩ := step_cases hs
  · exact prefix_rfl
  · change p.stores <+: (p.setStore stamp (answer p.store o).2).stores
    obtain ⟨hsame | ⟨hlt, _⟩, _⟩ := (h.threads i _ hi).call
    · exact (congrArg (fun s => (p.setStore stamp s).stores) hsame).trans (by rw [setStore_self]) ▸
        prefix_rfl
    · rw [stores_setStore hlt]
      exact prefix_append _ _
  · exact prefix_rfl

theorem Inv.stores_isPrefix_of_exec (hbegins : ∀ r, Begins answer stamp (T r) (Q r) (program r))
    (h : Inv answer stamp H T Q p) (hG : Meets (Pool.step answer stamp program) (Admits answer stamp H) p as)
    (hs : exec (Pool.step answer stamp program) p as = some p') : p.stores <+: p'.stores := by
  let I (q : Pool Op Res α R σ ι) := Inv answer stamp H T Q q ∧ p.stores <+: q.stores
  have hI : I p' := by
    refine exec_invariant (fun q a q' hq hadmits hstep => ?_) (I := I) ⟨h, prefix_rfl⟩ hG hs
    exact ⟨hq.1.step hbegins hadmits hstep, hq.2.trans (hq.1.stores_isPrefix hstep)⟩
  exact hI.2

theorem forall_mem_of_isChain {r : σ → σ → Prop} {J : σ → Prop} (hJ : ∀ s s', J s → r s s' → J s') {s : σ}
    {l : List σ} (hs : J s) (h : (s :: l).IsChain r) : ∀ s' ∈ s :: l, J s' := by
  induction l generalizing s with
  | nil => simpa using hs
  | cons t l ih =>
    obtain ⟨hst, hl⟩ := isChain_cons_cons.mp h
    exact forall_mem_cons.mpr ⟨hs, ih (hJ s t hs hst) hl⟩

theorem forall_stores (hbegins : ∀ r, Begins answer stamp (T r) (Q r) (program r)) {J : σ → Prop}
    (hJ : ∀ r s s', J s → H r s → T r s s' → J s') {s : σ} (hs : J s)
    (hG : Meets (step answer stamp program) (Admits answer stamp H) { store := s } as)
    (hp : exec (step answer stamp program) { store := s } as = some p) : ∀ s' ∈ p.stores, J s' := by
  have hinit : Inv answer stamp H T Q ({ store := s } : Pool Op Res α R σ ι) := .initial s
  obtain ⟨rest, hrest⟩ := hinit.stores_isPrefix_of_exec hbegins hG hp
  have hchain := (hinit.of_exec hbegins hG hp).chain
  rw [← hrest] at hchain ⊢
  exact forall_mem_of_isChain (fun s s' hs ⟨r, hH, hT⟩ => hJ r s s' hs hH hT) hs hchain

theorem since_of_step (h : p.step answer stamp program a = some p') {t' : Thread Op Res α R}
    (hi : p'.threads i = some t') : (∃ r, a = .begin i r ∧ t'.since = p.past.length) ∨
      (∀ r, a ≠ .begin i r) ∧ ∃ t, p.threads i = some t ∧ t.since = t'.since := by
  have hset {q : Pool Op Res α R σ ι} {j : ι} {u : Thread Op Res α R} (hq : q.threads = p.threads)
      (hu : (q.setThread j u).threads i = some t') : i = j ∧ u = t' ∨ p.threads i = some t' := by
    by_cases hj : i = j
    · exact .inl ⟨hj, by simpa [setThread, hj] using hu⟩
    · exact .inr (by simpa [setThread, hj, hq] using hu)
  obtain ⟨j, r, rfl, hj, rfl⟩ | ⟨j, r, since, o, next, rfl, hj, rfl⟩ | ⟨j, u, rfl, hj, rfl⟩ := step_cases h
  · obtain ⟨rfl, rfl⟩ | hold := hset rfl hi
    · exact .inl ⟨r, rfl, rfl⟩
    · refine .inr ⟨?_, t', hold, rfl⟩
      rintro _ ⟨⟩
      cases hj.symm.trans hold
  · refine .inr ⟨nofun, ?_⟩
    obtain ⟨rfl, rfl⟩ | hi := hset (q := p.setStore stamp _) rfl hi
    · exact ⟨_, hj, rfl⟩
    · exact ⟨t', hi, rfl⟩
  · refine .inr ⟨nofun, ?_⟩
    obtain ⟨rfl, rfl⟩ | hi := hset rfl hi
    · exact ⟨u, hj, rfl⟩
    · exact ⟨t', hi, rfl⟩

theorem past_length_le_of_step (h : p.step answer stamp program a = some p') : p.past.length ≤ p'.past.length := by
  obtain ⟨j, r, rfl, hj, rfl⟩ | ⟨j, r, since, o, next, rfl, hj, rfl⟩ | ⟨j, u, rfl, hj, rfl⟩ := step_cases h
  · exact le_rfl
  · simp only [setThread, setStore]
    split_ifs <;> simp
  · exact le_rfl

theorem since_le_of_exec (hi : p.threads i = none) (hs : exec (step answer stamp program) p as = some p')
    (ht : p'.threads i = some t) : p.past.length ≤ t.since := by
  let I (q : Pool Op Res α R σ ι) :=
    p.past.length ≤ q.past.length ∧ ∀ t, q.threads i = some t → p.past.length ≤ t.since
  have hI : I p' := by
    refine exec_invariant_of_step (fun q a q' hq hstep => ?_) (I := I) ⟨le_rfl, by simp [hi]⟩ hs
    refine ⟨hq.1.trans (past_length_le_of_step hstep), fun t' ht' => ?_⟩
    obtain ⟨r, -, hsince⟩ | ⟨-, t, ht, hsince⟩ := since_of_step hstep ht'
    · exact hsince ▸ hq.1
    · exact hsince ▸ hq.2 t ht
  exact hI.2 t ht

omit [DecidableEq ι] in
/-- A result is about one of the stores that were there since its request began. -/
theorem Inv.result (h : Inv answer stamp H T Q p) {r : R} {since : ℕ} {a : α}
    (hi : p.threads i = some ⟨r, since, .ret a⟩) : ∃ n s, since ≤ n ∧ p.stores[n]? = some s ∧ Q r s a := by
  obtain ⟨hsince, hbegins | ⟨n, s, hn, hs, ⟨_, _, hQ⟩ | hQ⟩⟩ := h.threads i _ hi
  · exact ⟨p.past.length, p.store, hsince, stores_getElem?, hbegins p.store⟩
  · exact ⟨n, s, hn, hs, hQ⟩
  · exact ⟨n, s, hn, hs, hQ⟩

end Pool

end Goblin.Lib.Optimistic
