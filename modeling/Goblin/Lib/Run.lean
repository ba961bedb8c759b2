import Mathlib

/-! Runs of a deterministic labelled transition system and the invariant rule for guarded runs. -/
namespace Goblin.Lib

variable {S A : Type*} (step : S → A → Option S)

variable {s t : S} {as : List A} {G : S → A → Prop}

/-- Runs the actions in order; `none` once an action is not enabled. -/
def exec : S → List A → Option S
  | s, [] => some s
  | s, a :: as => (step s a).bind fun t => exec t as

/-- Every action that the run takes meets the guard `G` in the state in which it is taken. -/
def Meets (G : S → A → Prop) : S → List A → Prop
  | _, [] => True
  | s, a :: as => ∀ t, step s a = some t → G s a ∧ Meets G t as

instance Meets.decidable (G : S → A → Prop) [∀ s a, Decidable (G s a)] :
    ∀ (s : S) (as : List A), Decidable (Meets step G s as)
  | _, [] => isTrue trivial
  | s, a :: as =>
    match h : step s a with
    | none => isTrue fun _ ht => nomatch h.symm.trans ht
    | some t =>
      have := Meets.decidable G t as
      decidable_of_iff (G s a ∧ Meets step G t as)
        ⟨fun hG _ ht => Option.some.inj (h.symm.trans ht) ▸ hG, fun hG => hG t h⟩

variable {step}

@[simp] theorem exec_nil (s : S) : exec step s [] = some s := rfl

theorem exec_cons {u : S} {a : A} (h : exec step s (a :: as) = some u) :
    ∃ t, step s a = some t ∧ exec step t as = some u := by
  cases ht : step s a with
  | none => simp [exec, ht] at h
  | some t => exact ⟨t, rfl, by simpa [exec, ht] using h⟩

theorem meets_cons {a : A} (ht : step s a = some t) (hg : G s a) (h : Meets step G t as) :
      Meets step G s (a :: as) := by
  intro u hu
  cases ht.symm.trans hu
  exact ⟨hg, h⟩

theorem meets_append_cons {u : S} {bs : List A} {a : A} (h : Meets step G s (as ++ a :: bs))
    (ht : exec step s as = some t) (hu : step t a = some u) : Meets step G s as ∧ G t a := by
  induction as generalizing s with
  | nil =>
    cases ht
    exact ⟨trivial, (h u hu).1⟩
  | cons b as ih =>
    obtain ⟨r, hr, hrt⟩ := exec_cons ht
    obtain ⟨hg, hG⟩ := h r hr
    obtain ⟨has, hga⟩ := ih hG hrt
    exact ⟨meets_cons hr hg has, hga⟩

theorem meets_append {bs : List A} (h : Meets step G s (as ++ bs)) (ht : exec step s as = some t) :
      Meets step G s as ∧ Meets step G t bs := by
  induction as generalizing s with
  | nil =>
    cases ht
    exact ⟨trivial, h⟩
  | cons a as ih =>
    obtain ⟨r, hr, hrt⟩ := exec_cons ht
    obtain ⟨hg, hG⟩ := h r hr
    obtain ⟨has, hbs⟩ := ih hG hrt
    exact ⟨meets_cons hr hg has, hbs⟩

theorem exec_append (s : S) (as bs : List A) :
    exec step s (as ++ bs) = (exec step s as).bind fun t => exec step t bs := by
  induction as generalizing s with
  | nil => rfl
  | cons a as ih =>
    cases ht : step s a with
    | none => simp [exec, ht]
    | some t => simpa [exec, ht] using ih t

theorem exec_snoc {u : S} {a : A} (hs : exec step s as = some t) (ht : step t a = some u) :
      exec step s (as ++ [a]) = some u := by
  simp [exec_append, hs, exec, ht]

theorem exists_exec_of_any {P : S → Prop} [DecidablePred P] (h : (exec step s as).any (fun t => decide (P t)) = true) :
      ∃ t, exec step s as = some t ∧ P t := by
  cases ht : exec step s as with
  | none => simp [ht] at h
  | some t => exact ⟨t, rfl, by simpa [ht] using h⟩

/-- A guarded run in which every step of the guard is safe, and every other step is not, is
characterised by the states it reaches. -/
theorem meets_iff_forall_reached {I P : S → Prop} (hP : ∀ s, I s → P s)
    (hstep : ∀ s a t, I s → step s a = some t → G s a → I t) (hbad : ∀ s a t, I s → step s a = some t → P t → G s a)
    (hs : I s) (as : List A) : Meets step G s as ↔ ∀ bs t, bs <+: as → exec step s bs = some t → P t := by
  induction as generalizing s with
  | nil =>
    refine ⟨fun _ bs t hbs ht => ?_, fun _ => trivial⟩
    obtain rfl := List.prefix_nil.mp hbs
    cases ht
    exact hP s hs
  | cons a as ih =>
    constructor
    · intro hG bs t hbs ht
      cases bs with
      | nil =>
        cases ht
        exact hP s hs
      | cons b bs =>
        obtain ⟨rfl, hbs'⟩ := List.cons_prefix_cons.mp hbs
        obtain ⟨r, hr, hrt⟩ := exec_cons ht
        obtain ⟨hg, hG⟩ := hG r hr
        exact (ih (hstep s b r hs hr hg)).mp hG bs t hbs' hrt
    · intro h t ht
      have hg : G s a := hbad s a t hs ht (h [a] t (by simp) (by simp [exec, ht]))
      refine ⟨hg, (ih (hstep s a t hs ht hg)).mpr fun bs u hbs hu => ?_⟩
      exact h (a :: bs) u (by simpa using hbs) (by simpa [exec, ht] using hu)

/-- What every guarded step preserves holds after every guarded run. -/
theorem exec_invariant {I : S → Prop} (hstep : ∀ s a t, I s → G s a → step s a = some t → I t) (hs : I s)
    (hG : Meets step G s as) (ht : exec step s as = some t) : I t := by
  induction as generalizing s with
  | nil =>
    cases ht
    exact hs
  | cons a as ih =>
    obtain ⟨r, hr, hrt⟩ := exec_cons ht
    obtain ⟨hg, hG⟩ := hG r hr
    exact ih (hstep s a r hs hg hr) hG hrt

theorem exec_invariant_of_step {I : S → Prop} (hstep : ∀ s a t, I s → step s a = some t → I t) (hs : I s)
    (ht : exec step s as = some t) : I t := by
  induction as generalizing s with
  | nil =>
    cases ht
    exact hs
  | cons a as ih =>
    obtain ⟨r, hr, hrt⟩ := exec_cons ht
    exact ih (hstep s a r hs hr) hrt

section History

variable {O : Type*}

/-- The system with a history of what `observe` sees of each action that is taken. -/
def traced (step : S → A → Option S) (observe : S → A → List O) (h : S × List O) (a : A) :
    Option (S × List O) :=
  (step h.1 a).map fun t => (t, h.2 ++ observe h.1 a)

variable {observe : S → A → List O}

/-- What every guarded step preserves, together with the history so far, holds after every guarded
run. -/
theorem exec_traced_invariant {G : S → A → Prop} {I : S → List O → Prop}
    (hstep : ∀ s a t os, I s os → G s a → step s a = some t → I t (os ++ observe s a))
    {s t : S} {os os' : List O} {as : List A} (hs : I s os) (hG : Meets step G s as)
    (ht : exec (traced step observe) (s, os) as = some (t, os')) : I t os' := by
  induction as generalizing s os with
  | nil =>
    cases ht
    exact hs
  | cons a as ih =>
    obtain ⟨h, hh, hrt⟩ := exec_cons ht
    obtain ⟨r, hr, rfl⟩ := Option.map_eq_some_iff.mp hh
    obtain ⟨hg, hG⟩ := hG r hr
    exact ih (hstep s a r os hs hg hr) hG hrt

theorem meets_true (s : S) (as : List A) : Meets step (fun _ _ => True) s as := by
  induction as generalizing s with
  | nil => trivial
  | cons a as ih => exact fun t _ => ⟨trivial, ih t⟩

end History

end Goblin.Lib
