import Goblin.Lib.Consensus.Frame

/-! Every step of a server keeps the invariants, and what is committed stays committed. -/
namespace Goblin.Lib.Consensus

open List Option Function

variable {N E : Type*} [DecidableEq N] {termOf : E → ℕ} {members : List N} {s s' : State N E}

omit [DecidableEq N] in
theorem led_update {term : ℕ} {l l' : Leadership N E} (hl : s.led term = some l) (hle : l.Le l') (term' : ℕ)
    (l₀ : Leadership N E) (h₀ : s.led term' = some l₀) :
    ∃ l₁, update s.led term (some l') term' = some l₁ ∧ l₀.Le l₁ := by
  by_cases hne : term' = term
  · subst hne
    cases hl.symm.trans h₀
    exact ⟨l', update_self .., hle⟩
  · exact ⟨l₀, (update_of_ne hne ..).trans h₀, .refl l₀⟩

omit [DecidableEq N] in
theorem led_new_update {term : ℕ} {l' : Leadership N E} {m : N} (hnode : l'.node = m) (term' : ℕ)
    (l₀ : Leadership N E) (h₀ : update s.led term (some l') term' = some l₀) :
    s.led term' = some l₀ ∨ term' = term ∧ l₀.node = m := by
  by_cases hne : term' = term
  · subst hne
    rw [update_self] at h₀
    cases h₀
    exact .inr ⟨rfl, hnode⟩
  · exact .inl ((update_of_ne hne ..).symm.trans h₀)

section Steps

variable {m : N} {term : ℕ} {l : Leadership N E} {voters : List N}

theorem by_setServer {server : Server E} (hterm : (s.server m).term ≤ server.term)
    (hknown : (s.server m).known ≤ server.known) : By m s (s.setServer m server) where
  server n hn := s.setServer_of_ne server hn
  term_le := by rwa [State.setServer_self]
  known_le := by rwa [State.setServer_self]
  led term l hl := ⟨l, hl, .refl l⟩
  led_new term l hl := .inl hl
  acked _ _ _ := rfl
  acked_le _ := le_rfl
  acked_eq _ _ := rfl
  vote _ _ _ hv := ⟨hv, rfl⟩
  campaign _ _ _ hc := hc

theorem by_grantVote {v c : N} (hterm : (s.server v).term ≤ term) (hfresh : s.votedFor term v = none) :
      By v s (s.grantVote v c term) where
  server n hn := s.setServer_of_ne _ hn
  term_le := by simpa
  known_le := by simp
  led term l hl := ⟨l, hl, .refl l⟩
  led_new term l hl := .inl hl
  acked _ _ _ := rfl
  acked_le _ := le_rfl
  acked_eq _ _ := rfl
  vote term' v' c' hv := by
    have hne : ¬(term' = term ∧ v' = v) := by
      rintro ⟨rfl, rfl⟩
      cases hfresh.symm.trans hv
    simp [State.grantVote, set₂_apply, hne, hv]
  campaign _ _ _ hc := hc

theorem by_acceptEntries (hterm : (s.server m).term ≤ term) (prev count leaderCommit : ℕ) (l : Leadership N E) :
    By m s (s.acceptEntries termOf m term prev count leaderCommit l) where
  server n hn := s.setServer_of_ne _ hn
  term_le := by simpa
  known_le := by
    rw [State.acceptEntries_server]
    exact le_max_left _ _
  led term l hl := ⟨l, hl, .refl l⟩
  led_new term l hl := .inl hl
  acked term' n hn := by simp [State.acceptEntries_acked, hn]
  acked_le term' := by
    rw [State.acceptEntries_acked]
    split_ifs with heq
    · rw [heq.1]
      exact le_max_left _ _
    · exact le_rfl
  acked_eq term' hlt := by rw [State.acceptEntries_acked, if_neg (by omega)]
  vote _ _ _ hv := ⟨hv, rfl⟩
  campaign _ _ _ hc := hc

variable (h : Inv termOf members s)
include h

theorem Inv.setServer {server : Server E} (hlog : server.log = (s.server m).log)
    (hterm : (s.server m).term ≤ server.term) (hrole : server.role = .follower)
    (hcommit : server.commitIndex ≤ (s.server m).known) (hknown : server.known = (s.server m).known) :
    Inv termOf members (s.setServer m server) := by
  have hb : By m s (s.setServer m server) := by_setServer hterm hknown.ge
  have hok := h.servers m
  have hmono := h.known_mono hb (s.server m).log fun _ _ _ _ _ hpre => hpre
  refine h.step_by hb ?_ (fun _ hl => .inl hl) (fun _ _ _ hc => .inl hc) (fun _ _ _ hv => .inl hv)
  constructor <;> simp only [State.setServer_self, hlog, hrole, hknown]
  · exact nofun
  · exact nofun
  · exact hb.good hok.good
  · exact fun e he => (hok.term_le e he).trans hterm
  · exact fun term hne => ⟨(hok.acked term hne).1.trans hterm, (hok.acked term hne).2⟩
  · exact fun term l k hl hk => (hok.kept term l k hl hk).imp_right fun hs => hb.skipped hs (by omega)
  · exact hcommit
  · simpa only [State.setServer_self] using hmono

theorem Inv.led_node_ne (hterm : (s.server m).term < term) (hl : s.led term = some l) : l.node ≠ m := by
  rintro rfl
  exact absurd (h.leaders term l hl).term_le (Nat.not_le.mpr hterm)

attribute [local simp] State.startCampaign

theorem Inv.by_startCampaign (m : N) : By m s (s.startCampaign m) where
  server n hn := s.setServer_of_ne _ hn
  term_le := by simp
  known_le := by simp
  led term l hl := ⟨l, hl, .refl l⟩
  led_new term l hl := .inl hl
  acked _ _ _ := rfl
  acked_le _ := le_rfl
  acked_eq _ _ := rfl
  vote term v c hv := by
    have hne : ¬(term = (s.server m).term + 1 ∧ v = m) := by
      rintro ⟨rfl, rfl⟩
      exact absurd (h.votes _ v c hv).1 (by omega)
    simp [set₂_apply, hne, hv]
  campaign term c log hc := by
    have hne : ¬(term = (s.server m).term + 1 ∧ c = m) := by
      rintro ⟨rfl, rfl⟩
      exact absurd (h.campaigns _ c log hc).2.1 (by omega)
    simp [set₂_apply, hne, hc]

theorem Inv.startCampaign (m : N) : Inv termOf members (s.startCampaign m) := by
  have hb := h.by_startCampaign m
  have hok := h.servers m
  have hmono := h.known_mono hb (s.server m).log fun _ _ _ _ _ hpre => hpre
  refine h.step_by hb ?_ (fun _ hl => .inl hl) (fun term n log hc => ?_) (fun term v c hv => ?_)
  · rw [State.startCampaign_server] at hmono
    constructor <;> rw [State.startCampaign_server]
    · exact nofun
    · exact fun _ => ⟨by simp [set₂_apply], fun l hl => h.led_node_ne (by simp) hl⟩
    · exact hb.good hok.good
    · exact fun e he => (hok.term_le e he).trans (Nat.le_succ _)
    · exact fun term hne => ⟨(hok.acked term hne).1.trans (Nat.le_succ _), (hok.acked term hne).2⟩
    · exact fun term l k hl hk => (hok.kept term l k hl hk).imp_right fun hs => hb.skipped hs (by simp)
    · exact hok.commit_le
    · exact hmono
  · simp only [State.startCampaign, set₂_apply] at hc
    split_ifs at hc with heq
    · obtain ⟨rfl, rfl⟩ := heq
      cases hc
      refine .inr ⟨Nat.succ_pos _, by simp, hb.good hok.good, fun e he => ?_⟩
      exact Nat.lt_succ_of_le (hok.term_le e he)
    · exact .inl hc
  · by_cases heq : term = (s.server m).term + 1 ∧ v = m
    · obtain ⟨rfl, rfl⟩ := heq
      have hc : v = c := by simpa [set₂_apply] using hv
      subst hc
      have hballot : (s.startCampaign v).ballot ((s.server v).term + 1) v = (s.server v).log := by
        simp [set₂_apply]
      refine .inr ⟨by simp, ⟨(s.server v).log, by simp [set₂_apply], ?_⟩, ?_, ?_⟩
      · rw [hballot]
        exact .inr ⟨rfl, le_rfl⟩
      · rw [hballot]
        exact hb.good hok.good
      · intro _ earlier l k hlt hl hk
        rw [hballot]
        exact (hok.kept earlier l k hl hk).imp_right fun hs => hb.skipped hs le_rfl
    · exact .inl (by simpa [set₂_apply, heq] using hv)

theorem Inv.grantVote {v c : N} {log : List E} (hterm : (s.server v).term ≤ term) (hfresh : s.votedFor term v = none)
    (hlog : s.campaign term c = some log) (hup : UpToDate termOf log (s.server v).log) :
      Inv termOf members (s.grantVote v c term) := by
  have hb : By v s (s.grantVote v c term) := by_grantVote hterm hfresh
  have hok := h.servers v
  have hmono := h.known_mono hb (s.server v).log fun _ _ _ _ _ hpre => hpre
  refine h.step_by hb ?_ (fun _ hl => .inl hl) (fun _ _ _ hc => .inl hc) (fun term' v' c' hv => ?_)
  · rw [State.grantVote_server] at hmono
    constructor <;> rw [State.grantVote_server]
    · intro hrole
      dsimp only at hrole ⊢
      split_ifs at hrole with hlt
      obtain rfl : (s.server v).term = term := by omega
      exact hok.leading hrole
    · intro hrole
      dsimp only at hrole ⊢
      split_ifs at hrole with hlt
      obtain rfl : (s.server v).term = term := by omega
      exact hok.asking hrole
    · exact hb.good hok.good
    · exact fun e he => (hok.term_le e he).trans hterm
    · exact fun term' hne => ⟨(hok.acked term' hne).1.trans hterm, (hok.acked term' hne).2⟩
    · exact fun term' l k hl hk => (hok.kept term' l k hl hk).imp_right fun hs => hb.skipped hs (by simp; omega)
    · exact hok.commit_le
    · exact hmono
  · by_cases heq : term' = term ∧ v' = v
    · obtain ⟨rfl, rfl⟩ := heq
      have hc : c = c' := by simpa [State.grantVote, set₂_apply] using hv
      subst hc
      have hballot : (s.grantVote v' c term').ballot term' v' = (s.server v').log := by
        simp [State.grantVote, set₂_apply]
      refine .inr ⟨by simp, ⟨log, hlog, hballot ▸ hup⟩, hballot ▸ hb.good hok.good, ?_⟩
      intro hnone earlier l k hlt hl hk
      rw [hballot]
      refine (hok.kept earlier l k hl hk).imp_right ?_
      -- a leader that was followed before the vote is of an earlier term
      rintro ⟨between, l', hgt, hbefore, hl', hnot⟩
      refine ⟨between, l', hgt, ?_, hl', hnot⟩
      have hne : between ≠ term' := by
        rintro rfl
        cases (show s.led between = none from hnone).symm.trans hl'
      omega
    · exact .inl (by simpa [State.grantVote, set₂_apply, heq] using hv)

/-- Two candidates do not win one term, and none wins it twice. -/
theorem Inv.led_eq_none (hrole : (s.server m).role = .candidate) (hmajority : majority members voters = true)
    (hvoted : ∀ v ∈ voters, s.votedFor (s.server m).term v = some m) : s.led (s.server m).term = none := by
  cases hl : s.led (s.server m).term with
  | none => rfl
  | some l =>
    obtain ⟨v, hv, hv'⟩ := exists_mem_of_majority (h.leaders _ l hl).elected hmajority
    have hnode : l.node = m := Option.some.inj (((h.leaders _ l hl).votes v hv).1.symm.trans (hvoted v hv'))
    exact absurd hnode (((h.servers m).asking hrole).2 l hl)

theorem Inv.by_becomeLeader (voters : List N) (hnone : s.led (s.server m).term = none) :
    By m s (s.becomeLeader m voters) where
  server n hn := s.setServer_of_ne _ hn
  term_le := by simp
  known_le := by simp
  led term l hl := by
    have hne : term ≠ (s.server m).term := by
      rintro rfl
      cases hnone.symm.trans hl
    exact ⟨l, (s.becomeLeader_led_of_ne m voters hne).trans hl, .refl l⟩
  led_new := led_new_update rfl
  acked term n hn := by simp [State.becomeLeader_acked, hn]
  acked_le term := by
    rw [State.becomeLeader_acked]
    split_ifs with heq
    · have hzero : s.acked (s.server m).term m = 0 := by
        by_contra hne
        obtain ⟨-, l, hl, -⟩ := (h.servers m).acked _ hne
        cases hnone.symm.trans hl
      rw [heq.1, hzero]
      exact Nat.zero_le _
    · exact le_rfl
  acked_eq term hlt := by rw [State.becomeLeader_acked, if_neg (by omega)]
  vote _ _ _ hv := ⟨hv, rfl⟩
  campaign _ _ _ hc := hc

theorem Inv.becomeLeader (hrole : (s.server m).role = .candidate) (hmajority : majority members voters = true)
    (hvoted : ∀ v ∈ voters, s.votedFor (s.server m).term v = some m) :
    Inv termOf members (s.becomeLeader m voters) := by
  have hnone := h.led_eq_none hrole hmajority hvoted
  have hok := h.servers m
  obtain ⟨hcampaign, -⟩ := hok.asking hrole
  obtain ⟨hpos, -, hgood, hlt⟩ := h.campaigns _ m _ hcampaign
  have hled := s.becomeLeader_led m voters
  have hb := h.by_becomeLeader voters hnone
  have hmono := h.known_mono hb (s.server m).log fun _ _ _ _ _ hpre => hpre
  refine h.step_by hb ?_ (fun l hl => ?_) (fun _ _ _ hc => .inl hc) (fun _ _ _ hv => .inl hv)
  · rw [State.becomeLeader_server] at hmono
    constructor <;> rw [State.becomeLeader_server]
    · exact fun _ => ⟨_, hled, rfl, rfl⟩
    · exact nofun
    · exact hb.good hok.good
    · exact hok.term_le
    · intro term hne
      by_cases hterm : term = (s.server m).term
      · subst hterm
        exact ⟨le_rfl, _, hled, by simp [State.becomeLeader_acked]⟩
      · rw [State.becomeLeader_acked, if_neg (by simp [hterm])] at hne ⊢
        rw [s.becomeLeader_led_of_ne m voters hterm]
        exact hok.acked term hne
    · intro term l k hl hk
      by_cases hterm : term = (s.server m).term
      · subst hterm
        cases hled.symm.trans hl
        exact .inl (List.take_prefix _ _)
      · rw [State.becomeLeader_acked, if_neg (by simp [hterm])] at hk
        rw [s.becomeLeader_led_of_ne m voters hterm] at hl
        exact (hok.kept term l k hl hk).imp_right fun hs => hb.skipped hs le_rfl
    · exact hok.commit_le
    · exact hmono
  · cases hled.symm.trans hl
    refine .inr ⟨hpos, by simp, hb.good hgood, hlt, ⟨[], by simp, nofun⟩, hmajority, fun v hv => ?_, .inl rfl⟩
    obtain ⟨-, ⟨log, hlog, hup⟩, -, hf⟩ := h.votes _ v m (hvoted v hv)
    cases hlog.symm.trans hcampaign
    exact ⟨hvoted v hv, hup, h.faithful hb (hvoted v hv) (hf hnone)⟩

theorem Inv.leader_eq (hrole : (s.server m).role = .leader) (hl : s.led (s.server m).term = some l) :
      l.node = m ∧ l.log = (s.server m).log := by
  obtain ⟨l', hl', hnode, hlog⟩ := (h.servers m).leading hrole
  cases hl.symm.trans hl'
  exact ⟨hnode, hlog⟩

theorem Inv.by_appendEntry (hrole : (s.server m).role = .leader) (hl : s.led (s.server m).term = some l) (entry : E) :
      By m s (s.appendEntry m entry l) := by
  obtain ⟨hnode, hlog⟩ := h.leader_eq hrole hl
  have hle : l.Le { l with log := (s.server m).log ++ [entry] } :=
    ⟨rfl, rfl, rfl, hlog ▸ prefix_append _ _, le_rfl⟩
  have hacked : s.acked (s.server m).term m ≤ (s.server m).log.length := by
    by_cases hne : s.acked (s.server m).term m = 0
    · omega
    · obtain ⟨-, l', hl', hlen⟩ := (h.servers m).acked _ hne
      cases hl.symm.trans hl'
      exact hlog ▸ hlen
  exact
    { server := fun n hn => s.setServer_of_ne _ hn
      term_le := by simp
      known_le := by simp
      led := led_update hl hle
      led_new := led_new_update hnode
      acked := fun term n hn => by simp [State.appendEntry_acked, hn]
      acked_le := fun term => by
        rw [State.appendEntry_acked]
        split_ifs with heq
        · rw [heq.1]
          omega
        · exact le_rfl
      acked_eq := fun term hlt => by rw [State.appendEntry_acked, if_neg (by omega)]
      vote := fun _ _ _ hv => ⟨hv, rfl⟩
      campaign := fun _ _ _ hc => hc }

theorem Inv.appendEntry {entry : E} (hrole : (s.server m).role = .leader) (hterm : termOf entry = (s.server m).term)
    (hl : s.led (s.server m).term = some l) : Inv termOf members (s.appendEntry m entry l) := by
  have hok := h.servers m
  have hlead := h.leaders _ l hl
  obtain ⟨hnode, hlog⟩ := h.leader_eq hrole hl
  have hled := s.appendEntry_led m entry l
  have hb := h.by_appendEntry hrole hl entry
  have hle : l.Le { l with log := (s.server m).log ++ [entry] } :=
    ⟨rfl, rfl, rfl, hlog ▸ prefix_append _ _, le_rfl⟩
  have hgrows : ∃ own, (s.server m).log ++ [entry] = l.start ++ own ∧ ∀ e ∈ own, termOf e = (s.server m).term := by
    obtain ⟨own, hown, hterms⟩ := hlead.grows
    refine ⟨own ++ [entry], by rw [← hlog, hown, append_assoc], fun e he => ?_⟩
    rcases mem_append.mp he with he | he
    · exact hterms e he
    · exact mem_singleton.mp he ▸ hterm
  have hlead' : LeaderOk termOf members (s.appendEntry m entry l) (s.server m).term
      { l with log := (s.server m).log ++ [entry] } :=
    h.leaderOk hb hl hle hgrows (hlead.committed.imp_right (hb.committed hle))
  have hpre : (s.server m).log <+: (s.server m).log ++ [entry] := prefix_append _ _
  have hmono := h.known_mono hb ((s.server m).log ++ [entry]) fun _ _ _ _ _ hk => hk.trans hpre
  refine h.step_by hb ?_ (fun l' hl' => ?_) (fun _ _ _ hc => .inl hc) (fun _ _ _ hv => .inl hv)
  · rw [State.appendEntry_server] at hmono
    constructor <;> rw [State.appendEntry_server]
    · exact fun _ => ⟨_, hled, hnode, rfl⟩
    · exact fun hcon => nomatch hrole.symm.trans hcon
    · exact hlead'.good hled
    · intro e he
      rcases mem_append.mp he with he | he
      · exact hok.term_le e he
      · exact (mem_singleton.mp he ▸ hterm).le
    · intro term hne
      by_cases heq : term = (s.server m).term
      · subst heq
        exact ⟨le_rfl, _, hled, by simp [State.appendEntry_acked]⟩
      · rw [State.appendEntry_acked, if_neg (by simp [heq])] at hne ⊢
        rw [s.appendEntry_led_of_ne m entry l heq]
        exact hok.acked term hne
    · intro term l' k hl' hk
      by_cases heq : term = (s.server m).term
      · subst heq
        cases hled.symm.trans hl'
        exact .inl (List.take_prefix _ _)
      · rw [State.appendEntry_acked, if_neg (by simp [heq])] at hk
        rw [s.appendEntry_led_of_ne m entry l heq] at hl'
        exact (hok.kept term l' k hl' hk).imp (fun hk => hk.trans hpre) fun hs => hb.skipped hs le_rfl
    · exact hok.commit_le
    · exact hmono
  · cases hled.symm.trans hl'
    exact .inr hlead'

theorem Inv.committed_isPrefix {term' : ℕ} {l' : Leadership N E} (hl : s.led term = some l)
    (hl' : s.led term' = some l') (hle : term ≤ term') {k : ℕ} (hk : k ≤ l.commit) : l.log.take k <+: l'.log := by
  rcases hle.lt_or_eq with hlt | rfl
  · have htake : l.log.take k <+: l.log.take l.commit := take_prefix_take_left hk
    rcases (h.leaders term l hl).committed with h0 | hc
    · simp [show k = 0 by omega]
    · exact htake.trans ((h.prefix_start hl hc term' l' hlt hl').trans (h.leaders term' l' hl').start_isPrefix)
  · cases hl.symm.trans hl'
    exact take_prefix _ _

theorem Inv.acceptEntries {prev count leaderCommit : ℕ} (hl : s.led term = some l) (hterm : (s.server m).term ≤ term)
    (hlen : prev + count ≤ l.log.length) (hcommit : leaderCommit ≤ l.commit)
    (hprev : PrevMatches termOf (s.server m).log l.log prev) :
    Inv termOf members (s.acceptEntries termOf m term prev count leaderCommit l) := by
  have hok := h.servers m
  have hlead := h.leaders term l hl
  have hagree : Agree termOf (s.server m).log l.log := hok.good.agree (hlead.good hl)
  have hb : By m s (s.acceptEntries termOf m term prev count leaderCommit l) :=
    by_acceptEntries hterm prev count leaderCommit l
  have hnew := take_prefix_appendEntries count hagree hprev
  have hkeep {pre : List E} (hown : pre <+: (s.server m).log) (hlog : pre <+: l.log) :=
    prefix_appendEntries count hagree hprev hown hlog
  have hpart : appendEntries termOf (s.server m).log prev ((l.log.drop prev).take count) <+: (s.server m).log ∨
      appendEntries termOf (s.server m).log prev ((l.log.drop prev).take count) <+: l.log := by
    rcases appendEntries_cases count hagree hprev with ⟨-, heq⟩ | ⟨-, heq⟩
    · exact .inl (heq.symm ▸ prefix_rfl)
    · exact .inr (heq ▸ take_prefix _ _)
  refine h.step_by hb ?_ (fun _ hl => .inl hl) (fun _ _ _ hc => .inl hc) (fun _ _ _ hv => .inl hv)
  constructor <;> rw [State.acceptEntries_server]
  · exact nofun
  · exact nofun
  · exact hpart.elim (fun hpre => (hb.good hok.good).of_isPrefix hpre)
      fun hpre => (hb.good (hlead.good hl)).of_isPrefix hpre
  · intro e he
    rcases hpart with hpre | hpre
    · exact (hok.term_le e (hpre.subset he)).trans hterm
    · obtain ⟨own, hown, hterms⟩ := hlead.grows
      rcases mem_append.mp (hown ▸ hpre.subset he) with he | he
      · exact (hlead.start_lt e he).le
      · exact (hterms e he).le
  · intro term' hne
    by_cases heq : term' = term
    · subst heq
      refine ⟨le_rfl, l, hl, ?_⟩
      rw [State.acceptEntries_acked, if_pos ⟨rfl, rfl⟩]
      by_cases hzero : s.acked term' m = 0
      · omega
      · obtain ⟨-, l', hl', hlen'⟩ := hok.acked term' hzero
        cases hl.symm.trans hl'
        exact max_le hlen' hlen
    · rw [State.acceptEntries_acked, if_neg (by simp [heq])] at hne ⊢
      exact ⟨(hok.acked term' hne).1.trans hterm, (hok.acked term' hne).2⟩
  · intro term' l' k hl' hk
    by_cases hnewK : term' = term ∧ k ≤ prev + count
    · obtain ⟨rfl, hk'⟩ := hnewK
      cases hl.symm.trans hl'
      exact .inl ((List.take_prefix_take_left hk').trans hnew)
    · have hk' : k ≤ s.acked term' m := by
        rw [State.acceptEntries_acked] at hk
        split_ifs at hk with heq
        · rw [heq.1]
          omega
        · exact hk
      rcases hok.kept term' l' k hl' hk' with hpre | hs
      · -- a later leader has these entries, or it was elected without them
        by_cases hin : l'.log.take k <+: l.log
        · exact .inl (hkeep hpre hin)
        · refine .inr ⟨term, l, ?_, Nat.lt_succ_self _, hl, fun hcon => hin (hcon.trans hlead.start_isPrefix)⟩
          have hle : term' ≤ term := by
            rcases Nat.eq_zero_or_pos k with rfl | hpos
            · exact absurd (by simp) hin
            · exact ((hok.acked term' (by omega)).1).trans hterm
          refine hle.lt_of_ne ?_
          rintro rfl
          cases hl.symm.trans hl'
          exact hin (List.take_prefix _ _)
      · exact .inr (hb.skipped hs (by simp; omega))
  · exact le_max_right _ _
  · have hci := hok.commit_le
    have hmono := h.known_mono hb (appendEntries termOf (s.server m).log prev ((l.log.drop prev).take count))
      fun term' l' hl' hterm' hknown hpre =>
        hkeep hpre (h.committed_isPrefix hl' hl (hterm'.trans hterm) hknown)
    rw [State.acceptEntries_server] at hmono
    rcases Nat.le_total (min leaderCommit (prev + count)) (s.server m).known with hle | hle
    · rw [show max (s.server m).known (max (s.server m).commitIndex (min leaderCommit (prev + count))) =
        (s.server m).known by omega]
      exact hmono
    · rw [show max (s.server m).known (max (s.server m).commitIndex (min leaderCommit (prev + count))) =
        min leaderCommit (prev + count) by omega]
      exact .inr ⟨term, l, le_rfl, hl, (min_le_left _ _).trans hcommit,
        (List.take_prefix_take_left (min_le_right _ _)).trans hnew⟩

theorem Inv.by_commitTo (hrole : (s.server m).role = .leader) (hl : s.led (s.server m).term = some l) (index : ℕ) :
      By m s (s.commitTo m index l) where
  server n hn := s.setServer_of_ne _ hn
  term_le := by simp
  known_le := by
    rw [State.commitTo_server]
    exact le_max_left _ _
  led := led_update hl ⟨rfl, rfl, rfl, prefix_rfl, le_max_left _ _⟩
  led_new := led_new_update (h.leader_eq hrole hl).1
  acked _ _ _ := rfl
  acked_le _ := le_rfl
  acked_eq _ _ := rfl
  vote _ _ _ hv := ⟨hv, rfl⟩
  campaign _ _ _ hc := hc

theorem Inv.commitTo {index : ℕ} (hrole : (s.server m).role = .leader) (hlt : (s.server m).commitIndex < index)
    (hentry : (s.server m).log[index - 1]?.map termOf = some (s.server m).term)
    (hmajority : majority members voters = true) (hvoters : ∀ v ∈ voters, index ≤ s.acked (s.server m).term v)
    (hl : s.led (s.server m).term = some l) : Inv termOf members (s.commitTo m index l) := by
  have hok := h.servers m
  have hlead := h.leaders _ l hl
  obtain ⟨hnode, hlog⟩ := h.leader_eq hrole hl
  have hled := s.commitTo_led m index l
  have hb := h.by_commitTo hrole hl index
  have hle : l.Le { l with commit := max l.commit index } := ⟨rfl, rfl, rfl, prefix_rfl, le_max_left _ _⟩
  have hcommitted : Committed termOf members (s.commitTo m index l) (s.server m).term
      { l with commit := max l.commit index } index := by
    obtain ⟨e, he, hterm⟩ := map_eq_some_iff.mp hentry
    exact ⟨⟨e, by omega, hlog ▸ he, hterm⟩, voters, hmajority, hvoters⟩
  have hlead' : LeaderOk termOf members (s.commitTo m index l) (s.server m).term
      { l with commit := max l.commit index } := by
    refine h.leaderOk hb hl hle hlead.grows (.inr ?_)
    rcases Nat.le_total l.commit index with hmax | hmax
    · simpa only [max_eq_right hmax] using hcommitted
    · simp only [max_eq_left hmax]
      exact hb.committed (.refl l) (hlead.committed.resolve_left (by omega))
  refine h.step_by hb ?_ (fun l' hl' => ?_) (fun _ _ _ hc => .inl hc) (fun _ _ _ hv => .inl hv)
  · have hmono := h.known_mono hb (s.server m).log fun _ _ _ _ _ hpre => hpre
    rw [State.commitTo_server] at hmono
    constructor <;> rw [State.commitTo_server]
    · exact fun _ => ⟨_, hled, hnode, hlog⟩
    · exact fun hcon => nomatch hrole.symm.trans hcon
    · exact hb.good hok.good
    · exact hok.term_le
    · intro term hne
      obtain ⟨hterm, l', hl', hlen⟩ := hok.acked term hne
      obtain ⟨l'', hl'', hle'⟩ := hb.led term l' hl'
      exact ⟨hterm, l'', hl'', hlen.trans hle'.log.length_le⟩
    · intro term l' k hl' hk
      rcases h.take_acked hb hl' hk with rfl | ⟨l₀, hl₀, htake⟩
      · exact .inl (by simp)
      · rw [htake]
        exact (hok.kept term l₀ k hl₀ hk).imp_right fun hs => hb.skipped hs le_rfl
    · exact le_max_right _ _
    · rcases Nat.le_total index (s.server m).known with hmax | hmax
      · simp only [max_eq_left hmax]
        exact hmono
      · simp only [max_eq_right hmax]
        exact .inr ⟨_, _, le_rfl, hled, le_max_right _ _, hlog ▸ take_prefix _ _⟩
  · cases hled.symm.trans hl'
    exact .inr hlead'

theorem Inv.step {a : Act N E} (hstep : Consensus.step termOf members s a = some s') :
    Inv termOf members s' ∧ By a.node s s' := by
  cases a with
  | campaign n =>
    cases hstep
    exact ⟨h.startCampaign n, h.by_startCampaign n⟩
  | vote v c term =>
    simp only [Consensus.step] at hstep
    split_ifs at hstep with hg
    cases hstep
    obtain ⟨hterm, hfresh, log, hlog, hup⟩ := hg
    exact ⟨h.grantVote hterm hfresh hlog hup, by_grantVote hterm hfresh⟩
  | win n voters =>
    simp only [Consensus.step] at hstep
    split_ifs at hstep with hg
    cases hstep
    obtain ⟨hrole, hmajority, hvoted⟩ := hg
    exact ⟨h.becomeLeader hrole hmajority hvoted,
      h.by_becomeLeader voters (h.led_eq_none hrole hmajority hvoted)⟩
  | append n entry =>
    simp only [Consensus.step] at hstep
    split_ifs at hstep with hg
    obtain ⟨l, hl, rfl⟩ := map_eq_some_iff.mp hstep
    exact ⟨h.appendEntry hg.1 hg.2 hl, h.by_appendEntry hg.1 hl entry⟩
  | replicate n term prev count leaderCommit =>
    obtain ⟨l, hl, hstep⟩ := bind_eq_some_iff.mp hstep
    split_ifs at hstep with hg
    cases hstep
    obtain ⟨-, hterm, hlen, hcommit, hprev⟩ := hg
    exact ⟨h.acceptEntries hl hterm hlen hcommit hprev, by_acceptEntries hterm prev count leaderCommit l⟩
  | commit n index voters =>
    simp only [Consensus.step] at hstep
    split_ifs at hstep with hg
    obtain ⟨l, hl, rfl⟩ := map_eq_some_iff.mp hstep
    obtain ⟨hrole, hlt, hentry, hmajority, hvoters⟩ := hg
    exact ⟨h.commitTo hrole hlt hentry hmajority hvoters hl, h.by_commitTo hrole hl index⟩
  | follow n term =>
    simp only [Consensus.step] at hstep
    split_ifs at hstep with hlt
    cases hstep
    exact ⟨h.setServer rfl hlt.le rfl (h.servers n).commit_le rfl, by_setServer hlt.le le_rfl⟩
  | restart n =>
    cases hstep
    exact ⟨h.setServer rfl le_rfl rfl (Nat.zero_le _) rfl, by_setServer le_rfl le_rfl⟩

theorem Inv.exists_led {n : N} {k : ℕ} (hk : k ≤ (s.server n).known) (hpos : 0 < k) :
    ∃ term l, s.led term = some l ∧ k ≤ l.commit ∧ (s.server n).log.take k = l.log.take k := by
  obtain ⟨term, l, -, hl, hknown, hpre⟩ := (h.servers n).known.resolve_left (by omega)
  have hlen := hknown.trans (h.leaders term l hl).commit_le
  refine ⟨term, l, hl, hk.trans hknown, ?_⟩
  rw [take_eq_of_isPrefix hpre (by simp only [length_take]; omega), take_take, Nat.min_eq_left hk]

theorem Inv.known_le (n : N) : (s.server n).known ≤ (s.server n).log.length := by
  rcases (h.servers n).known with h0 | ⟨term, l, -, hl, hcommit, hpre⟩
  · omega
  · have hlen := hpre.length_le
    have hle := hcommit.trans (h.leaders term l hl).commit_le
    rwa [length_take, Nat.min_eq_left hle] at hlen

theorem Inv.commit_agree {term' : ℕ} {l' : Leadership N E} (hl : s.led term = some l) (hl' : s.led term' = some l')
    {k : ℕ} (hk : k ≤ l.commit) (hk' : k ≤ l'.commit) : l.log.take k = l'.log.take k := by
  have hlen := hk.trans (h.leaders term l hl).commit_le
  have hlen' := hk'.trans (h.leaders term' l' hl').commit_le
  rcases Nat.le_total term term' with hle | hle
  · have hpre := h.committed_isPrefix hl hl' hle hk
    rw [take_eq_of_isPrefix hpre (by simp only [length_take]; omega), take_take, min_self]
  · have hpre := h.committed_isPrefix hl' hl hle hk'
    rw [take_eq_of_isPrefix hpre (by simp only [length_take]; omega), take_take, min_self]

theorem Inv.known_agree (n n' : N) {k : ℕ} (hk : k ≤ (s.server n).known) (hk' : k ≤ (s.server n').known) :
    (s.server n).log.take k = (s.server n').log.take k := by
  rcases Nat.eq_zero_or_pos k with rfl | hpos
  · rfl
  obtain ⟨term, l, hl, hcommit, heq⟩ := h.exists_led hk hpos
  obtain ⟨term', l', hl', hcommit', heq'⟩ := h.exists_led hk' hpos
  rw [heq, heq', h.commit_agree hl hl' hcommit hcommit']

theorem Inv.known_stable (hb : By m s s') (h' : Inv termOf members s') (n : N) :
    (s.server n).known ≤ (s'.server n).known ∧
      (s'.server n).log.take (s.server n).known = (s.server n).log.take (s.server n).known := by
  have hle : (s.server n).known ≤ (s'.server n).known := by
    by_cases hn : n = m
    · exact hn ▸ hb.known_le
    · rw [hb.server n hn]
  refine ⟨hle, ?_⟩
  rcases Nat.eq_zero_or_pos (s.server n).known with h0 | hpos
  · rw [h0]
    rfl
  obtain ⟨term, l, hl, hcommit, heq⟩ := h.exists_led le_rfl hpos
  obtain ⟨l₁, hl₁, hgrows⟩ := hb.led term l hl
  obtain ⟨term', l', hl', hcommit', heq'⟩ := h'.exists_led hle hpos
  rw [heq, heq', h'.commit_agree hl' hl₁ hcommit' (hcommit.trans hgrows.commit)]
  exact take_eq_of_isPrefix hgrows.log (hcommit.trans (h.leaders term l hl).commit_le)

end Steps

omit [DecidableEq N] in
theorem By.trans {m : N} {s'' : State N E} (h : By m s s') (h' : By m s' s'')
    (hterm : (s'.server m).term = (s.server m).term) : By m s s'' where
  server n hn := (h'.server n hn).trans (h.server n hn)
  term_le := h.term_le.trans h'.term_le
  known_le := h.known_le.trans h'.known_le
  led term l hl := by
    obtain ⟨l', hl', hle⟩ := h.led term l hl
    obtain ⟨l'', hl'', hle'⟩ := h'.led term l' hl'
    exact ⟨l'', hl'', hle.trans hle'⟩
  led_new term l hl := by
    rcases h'.led_new term l hl with hl | ⟨ht, hn⟩
    · exact h.led_new term l hl
    · exact .inr ⟨ht.trans hterm, hn⟩
  acked term n hn := (h'.acked term n hn).trans (h.acked term n hn)
  acked_le term := (h.acked_le term).trans (h'.acked_le term)
  acked_eq term hlt := (h'.acked_eq term (hterm.symm ▸ hlt)).trans (h.acked_eq term hlt)
  vote term v c hv := by
    obtain ⟨hv', hballot⟩ := h.vote term v c hv
    obtain ⟨hv'', hballot'⟩ := h'.vote term v c hv'
    exact ⟨hv'', hballot'.trans hballot⟩
  campaign term c log hc := h'.campaign term c log (h.campaign term c log hc)

theorem Inv.initial : Inv termOf members ({} : State N E) where
  leaders _ _ hl := nomatch hl
  servers _ := ⟨nofun, nofun, ⟨nofun, .nil⟩, nofun, fun _ hne => absurd rfl hne, nofun, le_rfl, .inl rfl⟩
  campaigns _ _ _ hc := nomatch hc
  votes _ _ _ hv := nomatch hv

end Goblin.Lib.Consensus
