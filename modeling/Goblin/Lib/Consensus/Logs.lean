import Goblin.Lib.Consensus.Protocol
import Goblin.Lib.Lookup

/-! Logs in which the term of an entry determines all that comes before it, and what the arrival of a
leader's entries does to them. -/
namespace Goblin.Lib.Consensus

open List

variable {N E : Type*} {termOf : E → ℕ}

theorem take_eq_of_isPrefix {pre log : List E} (h : pre <+: log) {k : ℕ} (hk : k ≤ pre.length) :
    log.take k = pre.take k := by
  obtain ⟨rest, rfl⟩ := h
  exact take_append_of_le_length hk

/-- Where two logs have an entry of one term, they are the same up to there. -/
def Agree (termOf : E → ℕ) (log log' : List E) : Prop :=
  ∀ (i : ℕ) e f, log[i]? = some e → log'[i]? = some f → termOf e = termOf f →
    log.take (i + 1) = log'.take (i + 1)

theorem Agree.tail {e : E} {log log' : List E} (h : Agree termOf (e :: log) (e :: log')) :
    Agree termOf log log' := by
  intro i f g hf hg hterm
  simpa using h (i + 1) f g hf hg hterm

theorem Agree.take_right {log log' : List E} (h : Agree termOf log log') (n : ℕ) :
    Agree termOf log (log'.take n) := by
  intro i e f he hf hterm
  have hi : i < n := by
    have := (List.getElem?_eq_some_iff.mp hf).1
    simp only [length_take] at this
    omega
  have hf' : log'[i]? = some f := by simpa [getElem?_take, hi] using hf
  rw [h i e f he hf' hterm, take_take, Nat.min_eq_left (by omega)]

theorem Agree.drop {log log' : List E} (h : Agree termOf log log') (n : ℕ) :
    Agree termOf (log.drop n) (log'.drop n) := by
  intro i e f he hf hterm
  have htake := h (n + i) e f (by simpa using he) (by simpa using hf) hterm
  rw [take_drop, take_drop, ← Nat.add_assoc, htake]

theorem merge_cases {own new : List E} (h : Agree termOf own new) :
    new <+: own ∧ merge termOf own new = own ∨ ¬ new <+: own ∧ merge termOf own new = new := by
  induction own generalizing new with
  | nil =>
    cases new with
    | nil => exact .inl ⟨List.nil_prefix, rfl⟩
    | cons f new => exact .inr ⟨by simp, rfl⟩
  | cons e own ih =>
    cases new with
    | nil => exact .inl ⟨List.nil_prefix, rfl⟩
    | cons f new =>
      by_cases hterm : termOf e = termOf f
      · obtain rfl : e = f := by simpa using h 0 e f rfl rfl hterm
        rcases ih h.tail with ⟨hpre, hmerge⟩ | ⟨hpre, hmerge⟩
        · exact .inl ⟨cons_prefix_cons.mpr ⟨rfl, hpre⟩, by simp [merge, hmerge]⟩
        · exact .inr ⟨fun hcon => hpre (cons_prefix_cons.mp hcon).2, by simp [merge, hmerge]⟩
      · refine .inr ⟨fun hcon => hterm ?_, by simp [merge, hterm]⟩
        rw [(cons_prefix_cons.mp hcon).1]

theorem PrevMatches.take_eq {own log : List E} {prev : ℕ} (h : PrevMatches termOf own log prev)
    (hagree : Agree termOf own log) : own.take prev = log.take prev := by
  rcases h with rfl | ⟨hle, hterm⟩
  · rfl
  cases prev with
  | zero => rfl
  | succ n =>
    obtain ⟨e, he⟩ : ∃ e, own[n]? = some e := ⟨own[n], getElem?_eq_getElem (by omega)⟩
    simp only [Nat.add_sub_cancel, he, Option.map_some] at hterm
    obtain ⟨f, hf, hterm⟩ := Option.map_eq_some_iff.mp hterm.symm
    exact hagree n e f he hf hterm.symm

/-- What arrives is a part of the leader's log: it is there already, or the log ends with it. -/
theorem appendEntries_cases {own log : List E} {prev : ℕ} (count : ℕ) (hagree : Agree termOf own log)
    (hprev : PrevMatches termOf own log prev) :
    log.take (prev + count) <+: own ∧ appendEntries termOf own prev ((log.drop prev).take count) = own ∨
      ¬ log.take (prev + count) <+: own ∧
        appendEntries termOf own prev ((log.drop prev).take count) = log.take (prev + count) := by
  have hsplit : log.take (prev + count) = own.take prev ++ (log.drop prev).take count := by
    rw [hprev.take_eq hagree, take_add]
  have hiff : log.take (prev + count) <+: own ↔ (log.drop prev).take count <+: own.drop prev := by
    rw [hsplit]
    conv_lhs => rhs; rw [← take_append_drop prev own]
    exact prefix_append_right_inj _
  unfold appendEntries
  rcases merge_cases ((hagree.drop prev).take_right count) with ⟨hpre, hmerge⟩ | ⟨hpre, hmerge⟩
  · exact .inl ⟨hiff.mpr hpre, by rw [hmerge, take_append_drop]⟩
  · exact .inr ⟨fun hcon => hpre (hiff.mp hcon), by rw [hmerge, hsplit]⟩

theorem take_prefix_appendEntries {own log : List E} {prev : ℕ} (count : ℕ) (hagree : Agree termOf own log)
    (hprev : PrevMatches termOf own log prev) :
    log.take (prev + count) <+: appendEntries termOf own prev ((log.drop prev).take count) := by
  rcases appendEntries_cases count hagree hprev with ⟨hpre, heq⟩ | ⟨-, heq⟩
  · rwa [heq]
  · exact heq.symm ▸ prefix_rfl

theorem prefix_appendEntries {own log pre : List E} {prev : ℕ} (count : ℕ) (hagree : Agree termOf own log)
    (hprev : PrevMatches termOf own log prev) (hown : pre <+: own) (hlog : pre <+: log) :
    pre <+: appendEntries termOf own prev ((log.drop prev).take count) := by
  rcases appendEntries_cases count hagree hprev with ⟨-, heq⟩ | ⟨hnot, heq⟩
  · rwa [heq]
  rw [heq]
  have htake : log.take (prev + count) <+: log := take_prefix _ _
  rcases Nat.le_total pre.length (log.take (prev + count)).length with hle | hle
  · exact prefix_of_prefix_length_le hlog htake hle
  · -- otherwise what arrives would have been there already
    exact absurd ((prefix_of_prefix_length_le htake hlog hle).trans hown) hnot

/-- More than half meets more than half. -/
theorem exists_mem_of_majority [DecidableEq N] {members voters voters' : List N}
    (h : majority members voters = true) (h' : majority members voters' = true) :
    ∃ n ∈ voters, n ∈ voters' := by
  by_contra! hnone
  have hcount : members.countP (· ∈ voters) + members.countP (· ∈ voters') ≤ members.length := by
    clear h h'
    induction members with
    | nil => simp
    | cons n members ih =>
      have := hnone n
      by_cases hn : n ∈ voters <;> by_cases hn' : n ∈ voters' <;> simp_all <;> omega
  simp only [majority, decide_eq_true_eq] at h h'
  omega

end Goblin.Lib.Consensus
