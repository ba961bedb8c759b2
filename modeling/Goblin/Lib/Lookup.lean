import Mathlib.Data.List.Forall2
import Mathlib.Logic.Function.Basic

/-! Looking up in a list by its index, and in a partial map, before and after one place is written. -/
namespace Goblin.Lib

open List Function

section Lists

variable {α β : Type*} {l l' : List α} {a b x : α} {i j : ℕ}

theorem getElem?_of_isPrefix (h : l <+: l') (ha : l[i]? = some a) : l'[i]? = some a := by
  obtain ⟨rest, rfl⟩ := h
  rw [List.getElem?_append_left (List.getElem?_eq_some_iff.mp ha).1, ha]

theorem getElem?_snoc_of_ne (h : i ≠ l.length) (a : α) : (l ++ [a])[i]? = l[i]? := by
  rw [getElem?_append]
  split_ifs with hi
  · rfl
  · rw [getElem?_eq_none (by simp; omega), getElem?_eq_none (by omega)]

theorem getElem?_snoc (h : (l ++ [a])[i]? = some x) : l[i]? = some x ∨ i = l.length ∧ x = a := by
  by_cases hi : i = l.length
  · subst hi
    rw [getElem?_concat_length] at h
    exact .inr ⟨rfl, (Option.some.inj h).symm⟩
  · exact .inl ((getElem?_snoc_of_ne hi a).symm.trans h)

theorem getElem?_set_same (h : l[i]? = some a) (b : α) : (l.set i b)[i]? = some b :=
  List.getElem?_set_self (List.getElem?_eq_some_iff.mp h).1

theorem getElem?_set_other (h : j ≠ i) : (l.set i b)[j]? = l[j]? := getElem?_set_ne h.symm

theorem set_self (h : l[i]? = some a) : l.set i a = l := by
  obtain ⟨hi, rfl⟩ := List.getElem?_eq_some_iff.mp h
  exact set_getElem_self hi

theorem mapM_eq_some_iff {f : α → Option β} {bs : List β} : l.mapM f = some bs ↔ l.map f = bs.map some := by
  induction l generalizing bs with
  | nil => cases bs <;> simp
  | cons a l ih =>
    cases bs with
    | nil => simp [mapM_cons, Option.bind_eq_some_iff]
    | cons b bs => simp [mapM_cons, Option.bind_eq_some_iff, ih]

theorem forall₂_exists_left {R : α → β → Prop} {bs : List β} (h : List.Forall₂ R l bs) {b : β} (hb : b ∈ bs) :
    ∃ a ∈ l, R a b := by
  induction h with
  | nil => cases hb
  | cons hr _ ih =>
    rcases mem_cons.mp hb with rfl | hb
    · exact ⟨_, mem_cons_self, hr⟩
    · obtain ⟨a, ha, hab⟩ := ih hb
      exact ⟨a, mem_cons_of_mem _ ha, hab⟩

end Lists

section Maps

variable {κ α : Type*} [DecidableEq κ] {m : κ → Option α} {k i : κ} {x y : α}

theorem of_update (h : update m k (some x) i = some y) : i = k ∧ y = x ∨ i ≠ k ∧ m i = some y := by
  by_cases hi : i = k
  · subst hi
    rw [update_self] at h
    exact .inl ⟨rfl, (Option.some.inj h).symm⟩
  · rw [update_of_ne hi] at h
    exact .inr ⟨hi, h⟩

theorem forall_update {P : α → Prop} (h : ∀ i y, m i = some y → P y) (hx : P x) :
    ∀ i y, update m k (some x) i = some y → P y := by
  intro i y hy
  obtain ⟨-, rfl⟩ | ⟨-, hy⟩ := of_update hy
  · exact hx
  · exact h i y hy

end Maps

theorem ok_of_toOption {ε α : Type} {x : Except ε α} {a : α} (h : x.toOption = some a) : x = .ok a := by
  cases x with
  | error e => cases h
  | ok b => exact congrArg _ (Option.some.inj h)

end Goblin.Lib
