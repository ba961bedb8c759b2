import Goblin.Lib.Consensus.Steps

/-! Entries that can no longer be committed. -/
namespace Goblin.Lib.Consensus

open List

variable {N E : Type*} [DecidableEq N] {termOf : E → ℕ} {members : List N} {s s' : State N E}

/-- No entry of the term will be committed at the position: another entry is committed there, or one of
a later term before it, or the leader of the term has moved on without writing there. -/
inductive Barred (termOf : E → ℕ) (s : State N E) (term position : ℕ) : Prop
  | replaced (n : N) (i : ℕ) (e : E) (hi : i ≤ position) (hknown : i < (s.server n).known)
      (he : (s.server n).log[i]? = some e) (hterm : term < termOf e ∨ i = position ∧ termOf e ≠ term)
  | unwritten (l : Leadership N E) (hl : s.led term = some l) (hlen : l.log.length ≤ position)
      (hterm : term < (s.server l.node).term)

theorem getElem?_of_take_eq {log log' : List E} {k i : ℕ} (h : log.take k = log'.take k) (hi : i < k) :
    log[i]? = log'[i]? := by
  rw [← getElem?_take_of_lt hi, h, getElem?_take_of_lt hi]

namespace Barred

variable {term position : ℕ}

theorem step (hbar : Barred termOf s term position) (h : Inv termOf members s) {m : N} (hb : By m s s')
    (h' : Inv termOf members s') : Barred termOf s' term position := by
  cases hbar with
  | replaced n i e hi hknown he hterm =>
    obtain ⟨hle, htake⟩ := h.known_stable hb h' n
    exact .replaced n i e hi (hknown.trans_le hle) ((getElem?_of_take_eq htake hknown).trans he) hterm
  | unwritten l hl hlen hterm =>
    obtain ⟨l', hl', hgrows⟩ := hb.led term l hl
    -- only the leader itself could go on, and it is in a later term
    rcases hb.led_new term l' hl' with hold | ⟨hcur, hnode⟩
    · cases hl.symm.trans hold
      exact .unwritten l hl' hlen (hterm.trans_le (hb.term_mono l.node))
    · rw [← hgrows.node, hnode] at hterm
      omega

theorem termOf_ne (hbar : Barred termOf s term position) (h : Inv termOf members s) {n : N} {e : E}
    (hknown : position < (s.server n).known) (he : (s.server n).log[position]? = some e) :
    termOf e ≠ term := by
  cases hbar with
  | replaced n' i f hi hknown' hf hterm =>
    have hagree := h.known_agree n n' (show i + 1 ≤ _ by omega) (show i + 1 ≤ _ by omega)
    have hf' : (s.server n).log[i]? = some f := (getElem?_of_take_eq hagree (Nat.lt_succ_self i)).trans hf
    rcases hterm with hlt | ⟨rfl, hne⟩
    · obtain ⟨hlen, rfl⟩ := List.getElem?_eq_some_iff.mp he
      obtain ⟨hlen', rfl⟩ := List.getElem?_eq_some_iff.mp hf'
      rcases hi.lt_or_eq with hi | rfl
      · have hle := pairwise_iff_getElem.mp (h.servers n).good.sorted i position hlen' hlen hi
        omega
      · omega
    · cases hf'.symm.trans he
      exact hne
  | unwritten l hl hlen hterm =>
    rintro rfl
    obtain ⟨l', hl', htake⟩ := (h.servers n).good.origin position e he
    cases hl.symm.trans hl'
    have hlt := (List.getElem?_eq_some_iff.mp he).1
    have hlens := congrArg List.length htake
    simp only [length_take] at hlens
    omega

end Barred

end Goblin.Lib.Consensus
