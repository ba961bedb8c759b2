import Mathlib

/-! Programs over an interface of operations: one run against a state, and what holds however the
operations are answered. -/
namespace Goblin.Lib

/-- A program ends with a result, ends in a failed assertion, or calls an operation. -/
inductive Program (Op : Type) (Res : Op → Type) (α : Type) : Type
  | ret (a : α)
  | abort
  | call (o : Op) (next : Res o → Program Op Res α)

namespace Program

variable {Op : Type} {Res : Op → Type} {α β σ : Type}

variable {p : Program Op Res α} {f : α → Program Op Res β}

def bind (p : Program Op Res α) (f : α → Program Op Res β) : Program Op Res β :=
  match p with
  | .ret a => f a
  | .abort => .abort
  | .call o next => .call o fun r => (next r).bind f

instance : Monad (Program Op Res) where
  pure := .ret
  bind := bind

@[simp] theorem pure_eq (a : α) : (pure a : Program Op Res α) = .ret a := rfl

@[simp] theorem ret_bind (a : α) (f : α → Program Op Res β) : (ret a >>= f) = f a := rfl

@[simp] theorem call_bind (o : Op) (next : Res o → Program Op Res α) (f : α → Program Op Res β) :
    (call o next >>= f) = .call o fun r => next r >>= f := rfl

theorem bind_assoc {γ : Type} (p : Program Op Res α) (f : α → Program Op Res β)
    (g : β → Program Op Res γ) : (p >>= f >>= g) = (p >>= fun a => f a >>= g) := by
  induction p with
  | ret a => rfl
  | abort => rfl
  | call o next ih => exact congrArg (call o) (funext ih)

/-- Runs the program when every call is answered from the same state, which a call may change. -/
def run (answer : σ → (o : Op) → Res o × σ) : Program Op Res α → σ → Option (α × σ)
  | .ret a, s => some (a, s)
  | .abort, _ => none
  | .call o next, s => (next (answer s o).1).run answer (answer s o).2

variable {answer : σ → (o : Op) → Res o × σ} {s : σ}

@[simp] theorem run_ret (a : α) : (ret a : Program Op Res α).run answer s = some (a, s) := rfl

@[simp] theorem run_abort : (abort : Program Op Res α).run answer s = none := rfl

@[simp] theorem run_call (o : Op) (next : Res o → Program Op Res α) :
    (call o next).run answer s = (next (answer s o).1).run answer (answer s o).2 := rfl

@[simp] theorem run_bind (p : Program Op Res α) (f : α → Program Op Res β) :
    (p >>= f).run answer s = (p.run answer s).bind fun r => (f r.1).run answer r.2 := by
  induction p generalizing s with
  | ret a => rfl
  | abort => rfl
  | call o next ih => exact ih (answer s o).1

theorem run_bind_eq_some {b : β} {u : σ} : (p >>= f).run answer s = some (b, u) ↔
      ∃ a t, p.run answer s = some (a, t) ∧ (f a).run answer t = some (b, u) := by
  rw [run_bind, Option.bind_eq_some_iff]
  exact ⟨fun ⟨⟨a, t⟩, ha, hb⟩ => ⟨a, t, ha, hb⟩, fun ⟨a, t, ha, hb⟩ => ⟨(a, t), ha, hb⟩⟩

/-- The program calls only operations in `P`, and as long as every answer is one that `R` admits, its
result meets `Q`. -/
def Obeys (P : Op → Prop) (R : (o : Op) → Res o → Prop) (Q : α → Prop) : Program Op Res α → Prop
  | .ret a => Q a
  | .abort => True
  | .call o next => P o ∧ ∀ r, R o r → (next r).Obeys P R Q

variable {P : Op → Prop} {R : (o : Op) → Res o → Prop} {Q : α → Prop}

theorem Obeys.bind {Q' : β → Prop} (hp : p.Obeys P R Q) (hf : ∀ a, Q a → (f a).Obeys P R Q') :
      (p >>= f).Obeys P R Q' := by
  induction p with
  | ret a => exact hf a hp
  | abort => trivial
  | call o next ih => exact ⟨hp.1, fun r hr => ih r (hp.2 r hr)⟩

theorem Obeys.mono {P' : Op → Prop} {R' : (o : Op) → Res o → Prop} {Q' : α → Prop} (hp : p.Obeys P R Q)
    (hP : ∀ o, P o → P' o) (hR : ∀ o r, P o → R' o r → R o r) (hQ : ∀ a, Q a → Q' a) : p.Obeys P' R' Q' := by
  induction p with
  | ret a => exact hQ a hp
  | abort => trivial
  | call o next ih => exact ⟨hP o hp.1, fun r hr => ih r (hp.2 r (hR o r hp.1 hr))⟩

theorem obeys_of_true (p : Program Op Res α) (h : ∀ a, Q a) : p.Obeys (fun _ => True) R Q := by
  induction p with
  | ret a => exact h a
  | abort => trivial
  | call o next ih => exact ⟨trivial, fun r _ => ih r⟩

/-- A run from a state whose answers are admitted, and stay so, meets the postcondition. -/
theorem Obeys.run {I : σ → Prop} {t : σ} {a : α} (hp : p.Obeys P R Q)
    (hI : ∀ s o, I s → P o → R o (answer s o).1 ∧ I (answer s o).2) (hs : I s) (hr : p.run answer s = some (a, t)) :
      Q a ∧ I t := by
  induction p generalizing s with
  | ret b =>
    cases hr
    exact ⟨hp, hs⟩
  | abort => cases hr
  | call o next ih =>
    obtain ⟨hR, hI'⟩ := hI s o hs hp.1
    exact ih _ (hp.2 _ hR) hI' hr

/-- As long as every answer is one that `R` admits, the program ends with a result, which meets `Q`. -/
def Ensures (R : (o : Op) → Res o → Prop) (Q : α → Prop) : Program Op Res α → Prop
  | .ret a => Q a
  | .abort => False
  | .call o next => ∀ r, R o r → (next r).Ensures R Q

theorem Ensures.bind {Q' : β → Prop} (hp : p.Ensures R Q) (hf : ∀ a, Q a → (f a).Ensures R Q') :
      (p >>= f).Ensures R Q' := by
  induction p with
  | ret a => exact hf a hp
  | abort => exact hp
  | call o next ih => exact fun r hr => ih r (hp r hr)

theorem Ensures.mono {Q' : α → Prop} (hp : p.Ensures R Q) (hQ : ∀ a, Q a → Q' a) : p.Ensures R Q' := by
  induction p with
  | ret a => exact hQ a hp
  | abort => exact hp
  | call o next ih => exact fun r hr => ih r (hp r hr)

theorem Ensures.weaken {R' : (o : Op) → Res o → Prop} (hp : p.Ensures R Q) (hR : ∀ o r, R' o r → R o r) :
      p.Ensures R' Q := by
  induction p with
  | ret a => exact hp
  | abort => exact hp
  | call o next ih => exact fun r hr => ih r (hp r (hR o r hr))

/-- A run from a state whose answers are admitted, and stay so, ends and meets the postcondition. -/
theorem Ensures.run {I : σ → Prop} (hp : p.Ensures R Q) (hI : ∀ s o, I s → R o (answer s o).1 ∧ I (answer s o).2)
    (hs : I s) : ∃ a t, p.run answer s = some (a, t) ∧ Q a ∧ I t := by
  induction p generalizing s with
  | ret a => exact ⟨a, s, rfl, hp, hs⟩
  | abort => exact hp.elim
  | call o next ih =>
    obtain ⟨hR, hI'⟩ := hI s o hs
    exact ih _ (hp _ hR) hI'

/-- What one answer does to the state, in a reflexive and transitive relation, a whole run does. -/
theorem run_rel {T : σ → σ → Prop} (hrefl : ∀ s, T s s) (htrans : ∀ s t u, T s t → T t u → T s u)
    (hstep : ∀ s o, T s (answer s o).2) {a : α} {t : σ} (hr : p.run answer s = some (a, t)) : T s t := by
  induction p generalizing s with
  | ret b =>
    cases hr
    exact hrefl _
  | abort => cases hr
  | call o next ih => exact htrans _ _ _ (hstep s o) (ih _ hr)

section Calls

/-- The calls of a run with their answers. -/
def calls (answer : σ → (o : Op) → Res o × σ) : Program Op Res α → σ → List (Σ o, Res o)
  | .ret _, _ => []
  | .abort, _ => []
  | .call o next, s => ⟨o, (answer s o).1⟩ :: (next (answer s o).1).calls answer (answer s o).2

/-- The program can end with `a` after the calls `cs` with their answers. -/
def Leads : Program Op Res α → α → List (Σ o, Res o) → Prop
  | .ret b, a, cs => a = b ∧ cs = []
  | .abort, _, _ => False
  | .call o next, a, cs => ∃ r ds, cs = ⟨o, r⟩ :: ds ∧ (next r).Leads a ds

variable {a : α} {b : β} {t : σ} {cs : List (Σ o, Res o)}

theorem leads_of_run (h : p.run answer s = some (a, t)) : p.Leads a (p.calls answer s) := by
  induction p generalizing s with
  | ret b =>
    cases h
    exact ⟨rfl, rfl⟩
  | abort => cases h
  | call o next ih => exact ⟨_, _, rfl, ih _ h⟩

theorem leads_bind : (p >>= f).Leads b cs ↔ ∃ a ds es, p.Leads a ds ∧ (f a).Leads b es ∧ cs = ds ++ es := by
  induction p generalizing cs with
  | ret a =>
    constructor
    · exact fun h => ⟨a, [], cs, ⟨rfl, rfl⟩, h, rfl⟩
    · rintro ⟨a, ds, es, ⟨rfl, rfl⟩, h, rfl⟩
      exact h
  | abort => exact ⟨False.elim, fun ⟨_, _, _, h, _⟩ => h⟩
  | call o next ih =>
    constructor
    · rintro ⟨r, cs, rfl, h⟩
      obtain ⟨a, ds, es, ha, hb, rfl⟩ := (ih r).mp h
      exact ⟨a, ⟨o, r⟩ :: ds, es, ⟨r, ds, rfl, ha⟩, hb, rfl⟩
    · rintro ⟨a, _, es, ⟨r, ds, rfl, ha⟩, hb, rfl⟩
      exact ⟨r, ds ++ es, rfl, (ih r).mpr ⟨a, ds, es, ha, hb, rfl⟩⟩

theorem Ensures.of_leads (hp : p.Ensures R fun _ => True)
    (h : ∀ a cs, p.Leads a cs → (∀ c ∈ cs, R c.1 c.2) → Q a) : p.Ensures R Q := by
  induction p with
  | ret a => exact h a [] ⟨rfl, rfl⟩ nofun
  | abort => exact hp
  | call o next ih =>
    refine fun r hr => ih r (hp r hr) fun a cs ha hcs => h a (⟨o, r⟩ :: cs) ⟨r, cs, rfl, ha⟩ ?_
    exact List.forall_mem_cons.mpr ⟨hr, hcs⟩

theorem calls_bind : (p >>= f).calls answer s =
    p.calls answer s ++ ((p.run answer s).elim [] fun r => (f r.1).calls answer r.2) := by
  induction p generalizing s with
  | ret a => rfl
  | abort => rfl
  | call o next ih => exact congrArg (_ :: ·) (ih _)

/-- The first call is answered in the state that the run starts from. -/
theorem answer_of_calls {o : Op} {r : Res o} (h : p.calls answer s = ⟨o, r⟩ :: cs) : r = (answer s o).1 := by
  cases p with
  | ret a => cases h
  | abort => cases h
  | call o next =>
    cases h
    rfl

end Calls

end Program

end Goblin.Lib
