import Goblin.Lib.Consensus.Safety

/-! A step of one server leaves the others and the history alone, up to growth; what the invariants say
about them carries over. -/
namespace Goblin.Lib.Consensus

variable {N E : Type*} [DecidableEq N] {termOf : E → ℕ} {members : List N} {s s' : State N E}

/-- What of a leadership stays, and what grows. -/
structure Leadership.Le (l l' : Leadership N E) : Prop where
  node : l'.node = l.node
  start : l'.start = l.start
  voters : l'.voters = l.voters
  log : l.log <+: l'.log
  commit : l.commit ≤ l'.commit

omit [DecidableEq N] in
theorem Leadership.Le.refl (l : Leadership N E) : l.Le l := ⟨rfl, rfl, rfl, List.prefix_rfl, le_rfl⟩

omit [DecidableEq N] in
theorem Leadership.Le.trans {l l' l'' : Leadership N E} (h : l.Le l') (h' : l'.Le l'') : l.Le l'' :=
  ⟨h'.node.trans h.node, h'.start.trans h.start, h'.voters.trans h.voters, h.log.trans h'.log,
    h.commit.trans h'.commit⟩

/-- All that a step of the server `m` does to the others and to the history. -/
structure By (m : N) (s s' : State N E) : Prop where
  server : ∀ n, n ≠ m → s'.server n = s.server n
  term_le : (s.server m).term ≤ (s'.server m).term
  known_le : (s.server m).known ≤ (s'.server m).known
  led : ∀ term l, s.led term = some l → ∃ l', s'.led term = some l' ∧ l.Le l'
  led_new : ∀ term l, s'.led term = some l → s.led term = some l ∨ term = (s.server m).term ∧ l.node = m
  acked : ∀ term n, n ≠ m → s'.acked term n = s.acked term n
  acked_le : ∀ term, s.acked term m ≤ s'.acked term m
  acked_eq : ∀ term, term < (s.server m).term → s'.acked term m = s.acked term m
  vote : ∀ term v c, s.votedFor term v = some c →
    s'.votedFor term v = some c ∧ s'.ballot term v = s.ballot term v
  campaign : ∀ term c log, s.campaign term c = some log → s'.campaign term c = some log

namespace By

variable {m : N}

omit [DecidableEq N]

theorem refl (m : N) : By m s s where
  server _ _ := rfl
  term_le := le_rfl
  known_le := le_rfl
  led _ l hl := ⟨l, hl, .refl l⟩
  led_new _ _ hl := .inl hl
  acked _ _ _ := rfl
  acked_le _ := le_rfl
  acked_eq _ _ := rfl
  vote _ _ _ hv := ⟨hv, rfl⟩
  campaign _ _ _ hc := hc

theorem term_mono (hb : By m s s') (n : N) : (s.server n).term ≤ (s'.server n).term := by
  by_cases hn : n = m
  · exact hn ▸ hb.term_le
  · rw [hb.server n hn]

theorem acked_mono (hb : By m s s') (term : ℕ) (n : N) : s.acked term n ≤ s'.acked term n := by
  by_cases hn : n = m
  · exact hn ▸ hb.acked_le term
  · rw [hb.acked term n hn]

theorem good (hb : By m s s') {log : List E} (h : Good termOf s log) : Good termOf s' log where
  origin i e he := by
    obtain ⟨l, hl, htake⟩ := h.origin i e he
    obtain ⟨l', hl', hle⟩ := hb.led _ l hl
    refine ⟨l', hl', htake.trans (take_eq_of_isPrefix hle.log ?_).symm⟩
    have hlen := congrArg List.length htake
    have hi := (List.getElem?_eq_some_iff.mp he).1
    simp only [List.length_take] at hlen
    omega
  sorted := h.sorted

theorem skipped (hb : By m s s') {term bound bound' : ℕ} {pre : List E} (h : Skipped s term pre bound)
    (hbound : bound ≤ bound') : Skipped s' term pre bound' := by
  obtain ⟨later, l, hlt, hlt', hl, hnot⟩ := h
  obtain ⟨l', hl', hle⟩ := hb.led later l hl
  exact ⟨later, l', hlt, hlt'.trans_le hbound, hl', hle.start ▸ hnot⟩

theorem committed [DecidableEq N] (hb : By m s s') {term index : ℕ} {l l' : Leadership N E} (hle : l.Le l')
    (h : Committed termOf members s term l index) : Committed termOf members s' term l' index := by
  obtain ⟨⟨e, hpos, he, hterm⟩, voters, hmajority, hacked⟩ := h
  exact ⟨⟨e, hpos, getElem?_of_isPrefix hle.log he, hterm⟩, voters, hmajority,
    fun v hv => (hacked v hv).trans (hb.acked_mono term v)⟩

end By

theorem Inv.take_acked (h : Inv termOf members s) {m : N} (hb : By m s s') {term k : ℕ} {n : N}
    {l' : Leadership N E} (hl' : s'.led term = some l') (hk : k ≤ s.acked term n) :
    k = 0 ∨ ∃ l, s.led term = some l ∧ l'.log.take k = l.log.take k := by
  rcases Nat.eq_zero_or_pos k with h0 | hpos
  · exact .inl h0
  obtain ⟨-, l, hl, hlen⟩ := (h.servers n).acked term (by omega)
  obtain ⟨l'', hl'', hle⟩ := hb.led term l hl
  cases hl'.symm.trans hl''
  exact .inr ⟨l, hl, take_eq_of_isPrefix hle.log (hk.trans hlen)⟩

theorem Inv.faithful (h : Inv termOf members s) {m : N} (hb : By m s s') {term : ℕ} {v c : N}
    (hvoted : s.votedFor term v = some c) (hf : Faithful s term v) : Faithful s' term v := by
  intro earlier l' k hlt hl' hk
  have hterm := (h.votes term v c hvoted).1
  have hacked : s'.acked earlier v = s.acked earlier v := by
    by_cases hv : v = m
    · subst hv
      exact hb.acked_eq earlier (hlt.trans_le hterm)
    · exact hb.acked earlier v hv
  rw [hacked] at hk
  rcases h.take_acked hb hl' hk with rfl | ⟨l, hl, htake⟩
  · exact .inl (by simp)
  · rw [htake, (hb.vote term v c hvoted).2]
    exact (hf earlier l k hlt hl hk).imp_right fun hs => hb.skipped hs le_rfl

theorem LeaderOk.commit_le {term : ℕ} {l : Leadership N E} (h : LeaderOk termOf members s term l) :
    l.commit ≤ l.log.length := by
  rcases h.committed with h0 | ⟨⟨e, hpos, he, -⟩, -⟩
  · omega
  · have := (List.getElem?_eq_some_iff.mp he).1
    omega

theorem Inv.leaderOk (h : Inv termOf members s) {m : N} (hb : By m s s') {term : ℕ} {l l' : Leadership N E}
    (hl : s.led term = some l) (hle : l.Le l')
    (hgrows : ∃ own, l'.log = l'.start ++ own ∧ ∀ e ∈ own, termOf e = term)
    (hcommitted : l'.commit = 0 ∨ Committed termOf members s' term l' l'.commit) :
    LeaderOk termOf members s' term l' where
  pos := (h.leaders term l hl).pos
  term_le := hle.node ▸ (h.leaders term l hl).term_le.trans (hb.term_mono l.node)
  start_good := hle.start ▸ hb.good (h.leaders term l hl).start_good
  start_lt := hle.start ▸ (h.leaders term l hl).start_lt
  grows := hgrows
  elected := hle.voters ▸ (h.leaders term l hl).elected
  votes v hv := by
    obtain ⟨hvoted, hup, hf⟩ := (h.leaders term l hl).votes v (hle.voters ▸ hv)
    obtain ⟨hvoted', hballot⟩ := hb.vote term v _ hvoted
    exact ⟨hle.node ▸ hvoted', by rw [hle.start, hballot]; exact hup, h.faithful hb hvoted hf⟩
  committed := hcommitted

theorem Inv.known_mono (h : Inv termOf members s) {m n : N} (hb : By m s s') (log : List E)
    (hlog : ∀ term l, s.led term = some l → term ≤ (s.server n).term → (s.server n).known ≤ l.commit →
      l.log.take (s.server n).known <+: (s.server n).log → l.log.take (s.server n).known <+: log) :
    (s.server n).known = 0 ∨ ∃ term l, term ≤ (s'.server n).term ∧ s'.led term = some l ∧
      (s.server n).known ≤ l.commit ∧ l.log.take (s.server n).known <+: log := by
  refine (h.servers n).known.imp_right ?_
  rintro ⟨term, l, hterm, hl, hknown, hpre⟩
  obtain ⟨l', hl', hle⟩ := hb.led term l hl
  refine ⟨term, l', hterm.trans (hb.term_mono n), hl', hknown.trans hle.commit, ?_⟩
  rw [take_eq_of_isPrefix hle.log (hknown.trans (h.leaders term l hl).commit_le)]
  exact hlog term l hl hterm hknown hpre

theorem Inv.serverOk (h : Inv termOf members s) {m n : N} (hb : By m s s') (hn : n ≠ m) :
    ServerOk termOf s' n := by
  have hok := h.servers n
  have hserver := hb.server n hn
  have hacked (term : ℕ) := hb.acked term n hn
  refine ⟨?_, ?_, ?_, ?_, ?_, ?_, ?_, ?_⟩
  · intro hrole
    rw [hserver] at hrole ⊢
    obtain ⟨l, hl, hnode, hlog⟩ := hok.leading hrole
    obtain ⟨l', hl', hle⟩ := hb.led _ l hl
    rcases hb.led_new _ l' hl' with hold | ⟨-, hm⟩
    · cases hl.symm.trans hold
      exact ⟨l, hl', hnode, hlog⟩
    · exact absurd ((hle.node.trans hnode).symm.trans hm) hn
  · intro hrole
    rw [hserver] at hrole ⊢
    obtain ⟨hcampaign, hnode⟩ := hok.asking hrole
    refine ⟨hb.campaign _ _ _ hcampaign, fun l hl => ?_⟩
    rcases hb.led_new _ l hl with hold | ⟨-, hm⟩
    · exact hnode l hold
    · exact fun hcon => hn (hcon.symm.trans hm)
  · rw [hserver]
    exact hb.good hok.good
  · rw [hserver]
    exact hok.term_le
  · intro term hne
    rw [hacked] at hne ⊢
    rw [hserver]
    obtain ⟨hterm, l, hl, hlen⟩ := hok.acked term hne
    obtain ⟨l', hl', hle⟩ := hb.led term l hl
    exact ⟨hterm, l', hl', hlen.trans hle.log.length_le⟩
  · intro term l' k hl' hk
    rw [hacked] at hk
    rw [hserver]
    rcases h.take_acked hb hl' hk with rfl | ⟨l, hl, htake⟩
    · exact .inl (by simp)
    · rw [htake]
      exact (hok.kept term l k hl hk).imp_right fun hs => hb.skipped hs le_rfl
  · rw [hserver]
    exact hok.commit_le
  · have hknown := h.known_mono hb (s.server n).log fun _ _ _ _ _ hpre => hpre
    rw [hserver] at hknown ⊢
    exact hknown

/-- It is enough to look at what the step changes. -/
theorem Inv.step_by (h : Inv termOf members s) {m : N} (hb : By m s s') (hserver : ServerOk termOf s' m)
    (hleader : ∀ l, s'.led (s.server m).term = some l → s.led (s.server m).term = some l ∨
      LeaderOk termOf members s' (s.server m).term l)
    (hcampaign : ∀ term n log, s'.campaign term n = some log → s.campaign term n = some log ∨
      0 < term ∧ term ≤ (s'.server n).term ∧ Good termOf s' log ∧ ∀ e ∈ log, termOf e < term)
    (hvote : ∀ term v c, s'.votedFor term v = some c → s.votedFor term v = some c ∨
      term ≤ (s'.server v).term ∧
        (∃ log, s'.campaign term c = some log ∧ UpToDate termOf log (s'.ballot term v)) ∧
          Good termOf s' (s'.ballot term v) ∧ (s'.led term = none → Faithful s' term v)) :
    Inv termOf members s' where
  leaders term l hl := by
    have hsame (hold : s.led term = some l) : LeaderOk termOf members s' term l :=
      have hok := h.leaders term l hold
      h.leaderOk hb hold (.refl l) hok.grows (hok.committed.imp_right (hb.committed (.refl l)))
    rcases hb.led_new term l hl with hold | ⟨rfl, -⟩
    · exact hsame hold
    · exact (hleader l hl).elim hsame id
  servers n := by
    by_cases hn : n = m
    · exact hn ▸ hserver
    · exact h.serverOk hb hn
  campaigns term n log hlog := by
    rcases hcampaign term n log hlog with hold | hnew
    · obtain ⟨hpos, hterm, hgood, hlt⟩ := h.campaigns term n log hold
      exact ⟨hpos, hterm.trans (hb.term_mono n), hb.good hgood, hlt⟩
    · exact hnew
  votes term v c hv := by
    rcases hvote term v c hv with hold | hnew
    · obtain ⟨hterm, ⟨log, hlog, hup⟩, hgood, hf⟩ := h.votes term v c hold
      obtain ⟨-, hballot⟩ := hb.vote term v c hold
      refine ⟨hterm.trans (hb.term_mono v), ⟨log, hb.campaign term c log hlog, hballot ▸ hup⟩,
        hballot ▸ hb.good hgood, fun hnone => h.faithful hb hold (hf ?_)⟩
      cases hled : s.led term with
      | none => rfl
      | some l =>
        obtain ⟨l', hl', -⟩ := hb.led term l hled
        exact nomatch hnone.symm.trans hl'
    · exact hnew


end Goblin.Lib.Consensus
