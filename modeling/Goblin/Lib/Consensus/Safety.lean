import Goblin.Lib.Consensus.Logs

/-! What the history of a cluster keeps, and why a leader has all that was committed before its term. -/
namespace Goblin.Lib.Consensus

open List

variable {N E : Type*} [DecidableEq N] (termOf : E → ℕ) (members : List N)

/-- Every entry was written by the leader of its term, with all that comes before it. -/
structure Good (s : State N E) (log : List E) : Prop where
  origin : ∀ (i : ℕ) e, log[i]? = some e →
    ∃ l, s.led (termOf e) = some l ∧ log.take (i + 1) = l.log.take (i + 1)
  sorted : log.Pairwise fun e f => termOf e ≤ termOf f

/-- A leader after `term` and before `bound` was elected without the entries `pre`. -/
def Skipped (s : State N E) (term : ℕ) (pre : List E) (bound : ℕ) : Prop :=
  ∃ term' l, term < term' ∧ term' < bound ∧ s.led term' = some l ∧ ¬ pre <+: l.start

/-- When the voter gave its vote, it still had what it had confirmed to earlier leaders. -/
def Faithful (s : State N E) (term : ℕ) (voter : N) : Prop :=
  ∀ earlier l k, earlier < term → s.led earlier = some l → k ≤ s.acked earlier voter →
    l.log.take k <+: s.ballot term voter ∨ Skipped s earlier (l.log.take k) term

/-- The entry of a leader's own term has reached more than half of the members. -/
def Committed (s : State N E) (term : ℕ) (l : Leadership N E) (index : ℕ) : Prop :=
  (∃ e, 0 < index ∧ l.log[index - 1]? = some e ∧ termOf e = term) ∧
    ∃ voters, majority members voters ∧ ∀ v ∈ voters, index ≤ s.acked term v

structure LeaderOk (s : State N E) (term : ℕ) (l : Leadership N E) : Prop where
  pos : 0 < term
  term_le : term ≤ (s.server l.node).term
  start_good : Good termOf s l.start
  start_lt : ∀ e ∈ l.start, termOf e < term
  grows : ∃ own, l.log = l.start ++ own ∧ ∀ e ∈ own, termOf e = term
  elected : majority members l.voters
  votes : ∀ v ∈ l.voters, s.votedFor term v = some l.node ∧ UpToDate termOf l.start (s.ballot term v) ∧
    Faithful s term v
  committed : l.commit = 0 ∨ Committed termOf members s term l l.commit

structure ServerOk (s : State N E) (n : N) : Prop where
  leading : (s.server n).role = .leader →
    ∃ l, s.led (s.server n).term = some l ∧ l.node = n ∧ l.log = (s.server n).log
  asking : (s.server n).role = .candidate → s.campaign (s.server n).term n = some (s.server n).log ∧
    ∀ l, s.led (s.server n).term = some l → l.node ≠ n
  good : Good termOf s (s.server n).log
  term_le : ∀ e ∈ (s.server n).log, termOf e ≤ (s.server n).term
  acked : ∀ term, s.acked term n ≠ 0 →
    term ≤ (s.server n).term ∧ ∃ l, s.led term = some l ∧ s.acked term n ≤ l.log.length
  kept : ∀ term l k, s.led term = some l → k ≤ s.acked term n →
    l.log.take k <+: (s.server n).log ∨ Skipped s term (l.log.take k) ((s.server n).term + 1)
  commit_le : (s.server n).commitIndex ≤ (s.server n).known
  known : (s.server n).known = 0 ∨ ∃ term l, term ≤ (s.server n).term ∧ s.led term = some l ∧
    (s.server n).known ≤ l.commit ∧ l.log.take (s.server n).known <+: (s.server n).log

structure Inv (s : State N E) : Prop where
  leaders : ∀ term l, s.led term = some l → LeaderOk termOf members s term l
  servers : ∀ n, ServerOk termOf s n
  campaigns : ∀ term n log, s.campaign term n = some log →
    0 < term ∧ term ≤ (s.server n).term ∧ Good termOf s log ∧ ∀ e ∈ log, termOf e < term
  votes : ∀ term v c, s.votedFor term v = some c → term ≤ (s.server v).term ∧
    (∃ log, s.campaign term c = some log ∧ UpToDate termOf log (s.ballot term v)) ∧
      Good termOf s (s.ballot term v) ∧ (s.led term = none → Faithful s term v)

variable {termOf members} {s : State N E}

omit [DecidableEq N] in
theorem Good.agree {log log' : List E} (h : Good termOf s log) (h' : Good termOf s log') :
    Agree termOf log log' := by
  intro i e f he hf hterm
  obtain ⟨l, hl, htake⟩ := h.origin i e he
  obtain ⟨l', hl', htake'⟩ := h'.origin i f hf
  rw [hterm] at hl
  cases hl.symm.trans hl'
  exact htake.trans htake'.symm

omit [DecidableEq N] in
theorem Good.of_isPrefix {log pre : List E} (h : Good termOf s log) (hpre : pre <+: log) :
    Good termOf s pre where
  origin i e he := by
    have hlen := (List.getElem?_eq_some_iff.mp he).1
    obtain ⟨l, hl, htake⟩ := h.origin i e (getElem?_of_isPrefix hpre he)
    exact ⟨l, hl, (take_eq_of_isPrefix hpre (by omega)).symm.trans htake⟩
  sorted := h.sorted.sublist hpre.sublist

omit [DecidableEq N] in
theorem getElem?_last (termOf : E → ℕ) {log : List E} (hne : log ≠ []) :
    ∃ e, log[log.length - 1]? = some e ∧ lastTerm termOf log = termOf e := by
  refine ⟨log.getLast hne, ?_, ?_⟩
  · rw [← getLast?_eq_getElem?, getLast?_eq_getLast_of_ne_nil hne]
  · simp [lastTerm, getLast?_eq_getLast_of_ne_nil hne]

omit [DecidableEq N] in
theorem Good.eq_take {log : List E} (h : Good termOf s log) (hne : log ≠ []) :
    ∃ l, s.led (lastTerm termOf log) = some l ∧ log = l.log.take log.length := by
  obtain ⟨e, he, hterm⟩ := getElem?_last termOf hne
  obtain ⟨l, hl, htake⟩ := h.origin _ e he
  have hlen : log.length - 1 + 1 = log.length := Nat.sub_add_cancel (length_pos_iff.mpr hne)
  rw [hlen, take_length] at htake
  exact ⟨l, hterm ▸ hl, htake⟩

omit [DecidableEq N] in
theorem Good.term_le_lastTerm {log : List E} (h : Good termOf s log) {i : ℕ} {e : E} (he : log[i]? = some e) :
    termOf e ≤ lastTerm termOf log := by
  obtain ⟨hlt, hei⟩ := List.getElem?_eq_some_iff.mp he
  have hne : log ≠ [] := ne_nil_of_length_pos (by omega)
  obtain ⟨f, hf, hterm⟩ := getElem?_last termOf hne
  obtain ⟨hlast, hfi⟩ := List.getElem?_eq_some_iff.mp hf
  rw [hterm]
  rcases Nat.lt_or_ge i (log.length - 1) with hi | hi
  · rw [← hei, ← hfi]
    exact pairwise_iff_getElem.mp h.sorted i (log.length - 1) hlt hlast hi
  · obtain rfl : i = log.length - 1 := by omega
    cases he.symm.trans hf
    exact le_rfl

namespace LeaderOk

variable {term : ℕ} {l : Leadership N E}

theorem start_isPrefix (h : LeaderOk termOf members s term l) : l.start <+: l.log := by
  obtain ⟨own, hlog, -⟩ := h.grows
  exact hlog ▸ prefix_append _ _

theorem good (h : LeaderOk termOf members s term l) (hl : s.led term = some l) : Good termOf s l.log where
  origin i e he := by
    obtain ⟨own, hlog, hown⟩ := h.grows
    by_cases hi : i < l.start.length
    · have hstart : l.start[i]? = some e := by rwa [hlog, getElem?_append_left hi] at he
      obtain ⟨l', hl', htake⟩ := h.start_good.origin i e hstart
      exact ⟨l', hl', (take_eq_of_isPrefix h.start_isPrefix (by omega)).trans htake⟩
    · have hmem : e ∈ own := by
        rw [hlog, getElem?_append_right (by omega)] at he
        exact mem_of_getElem? he
      exact ⟨l, hown e hmem ▸ hl, rfl⟩
  sorted := by
    obtain ⟨own, hlog, hown⟩ := h.grows
    rw [hlog, pairwise_append]
    refine ⟨h.start_good.sorted, pairwise_of_forall_mem_list fun e he f hf => ?_, fun e he f hf => ?_⟩
    · rw [hown e he, hown f hf]
    · rw [hown f hf]
      exact (h.start_lt e he).le

end LeaderOk

omit [DecidableEq N] in
theorem ne_nil_of_lastTerm_pos {log : List E} (h : 0 < lastTerm termOf log) : log ≠ [] := by
  rintro rfl
  exact absurd h (lt_irrefl 0)

/-- A log that may lead a voter has what the voter has, if the leaders of later terms had it. -/
theorem Inv.prefix_of_upToDate (h : Inv termOf members s) {term : ℕ} {pre log ballot : List E} (hpos : 0 < term)
    (hpre : pre <+: ballot) (hballot : Good termOf s ballot) (hlog : Good termOf s log)
    (hterm : term ≤ lastTerm termOf ballot) (hup : UpToDate termOf log ballot)
    (hlater : ∀ later l, term < later → later ≤ lastTerm termOf log → s.led later = some l → pre <+: l.start) :
    pre <+: log := by
  rcases hup with hlt | ⟨heq, hlen⟩
  · have hlast : 0 < lastTerm termOf log := by omega
    have hne := ne_nil_of_lastTerm_pos hlast
    obtain ⟨l, hl, htake⟩ := hlog.eq_take hne
    have hstart := hlater _ l (by omega) le_rfl hl
    have hok := h.leaders _ l hl
    have hpart : log <+: l.log := htake ▸ take_prefix _ _
    have hlong : l.start.length ≤ log.length := by
      -- the last entry of the log is of the leader's own term
      by_contra hcon
      have hshort : log <+: l.start := prefix_of_prefix_length_le hpart hok.start_isPrefix (by omega)
      obtain ⟨e, he, hlast⟩ := getElem?_last termOf hne
      have := hok.start_lt e (mem_of_getElem? (getElem?_of_isPrefix hshort he))
      omega
    exact prefix_of_prefix_length_le (hstart.trans hok.start_isPrefix) hpart (hstart.length_le.trans hlong)
  · have hlast : 0 < lastTerm termOf ballot := by omega
    have hne := ne_nil_of_lastTerm_pos hlast
    have hne' := ne_nil_of_lastTerm_pos (heq ▸ hlast)
    obtain ⟨l, hl, htake⟩ := hballot.eq_take hne
    obtain ⟨l', hl', htake'⟩ := hlog.eq_take hne'
    rw [heq] at hl
    cases hl.symm.trans hl'
    have hpart : ballot <+: l.log := htake ▸ take_prefix _ _
    have hpart' : log <+: l.log := htake' ▸ take_prefix _ _
    exact hpre.trans (prefix_of_prefix_length_le hpart hpart' hlen)

/-- An entry that was committed in a term is in the log of every leader that was elected later. -/
theorem Inv.prefix_start (h : Inv termOf members s) {term : ℕ} {l : Leadership N E} {index : ℕ}
    (hl : s.led term = some l) (hcommitted : Committed termOf members s term l index) :
    ∀ later l', term < later → s.led later = some l' → l.log.take index <+: l'.start := by
  obtain ⟨⟨e, hindex, he, hterm⟩, voters, hmajority, hacked⟩ := hcommitted
  intro later
  -- on the term of the later leader: the leaders in between have the entry
  induction later using Nat.strong_induction_on with
  | _ later ih =>
    intro l' hlt hl'
    have hok := h.leaders later l' hl'
    obtain ⟨v, hv, hv'⟩ := exists_mem_of_majority hmajority hok.elected
    obtain ⟨hvoted, hup, hfaithful⟩ := hok.votes v hv'
    have hballot : l.log.take index <+: s.ballot later v := by
      rcases hfaithful term l index hlt hl (hacked v hv) with hpre | ⟨between, m, hgt, hbefore, hm, hnot⟩
      · exact hpre
      · exact absurd (ih between hbefore m hgt hm) hnot
    have hgood : Good termOf s (s.ballot later v) := (h.votes later v _ hvoted).2.2.1
    have hlast : term ≤ lastTerm termOf (s.ballot later v) := by
      have hmem : (l.log.take index)[index - 1]? = some e := by
        rw [getElem?_take_of_lt (by omega), he]
      rw [← hterm]
      exact hgood.term_le_lastTerm (getElem?_of_isPrefix hballot hmem)
    refine h.prefix_of_upToDate (h.leaders term l hl).pos hballot hgood hok.start_good hlast hup ?_
    intro between m hgt hle hm
    refine ih between ?_ m hgt hm
    have hlastStart : 0 < lastTerm termOf l'.start := by omega
    obtain ⟨f, hf, hf'⟩ := getElem?_last termOf (ne_nil_of_lastTerm_pos hlastStart)
    have := hok.start_lt f (mem_of_getElem? hf)
    omega

end Goblin.Lib.Consensus
