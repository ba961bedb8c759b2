import Goblin.Execution.Import
import Goblin.Execution.NoAbort

/-! What becomes of the errors that the store reports while the entries of a transaction are executed. -/
namespace Goblin.Execution.TransErrors

open Model Store Lib KVTransCommand List Option
open KVEngine (Answers)

def IgnoredPut (cond : CondState) : Entry → Prop
  | .write e => e.key ∈ cond.ignoredUdfUintKeys
  | _ => False

/-- The user defined meta of a write is compared inside the lists of its condition, unless its ttl cannot be read. -/
def Inside (cond : CondState) (cs : List Call) (entry : Entry) : Prop :=
  (∀ c ∈ cs, ¬ Erred c) → StaysInside cond entry

/-- The entry, which makes the calls `cs`, makes the transaction fail: a write whose ttl cannot be read or whose
user defined meta is not the one of the condition, a read whose value cannot be read, a removal whose value cannot
be read and behind which only ignored puts follow, or no entry at all. -/
def Refuses (cond : CondState) (cs : List Call) (after : List Entry) : Entry → Prop
  | .write e => e.key ∉ cond.ignoredUdfUintKeys ∧ ((∃ c ∈ cs, Erred c) ∨
    ∃ m, cond.udfUintKey2Meta e.key = some m ∧ udfMetaIdentical e.udfMeta m = some false)
  | .read e => ∃ out r, (⟨.readKV e.key out, r⟩ : Call) ∈ cs ∧ Failed r.1
  | .remove _ => (∃ c ∈ cs, Erred c) ∧ ∀ entry ∈ after, IgnoredPut cond entry
  | .unset => True

section Calls

variable {cs : List Call} {key : KeyType}

theorem readKV_iff_of_entryReads {fromProxy : Bool} {t : TemporalKVStore} {r : Status × ReadOut}
    (h : EntryReads fromProxy t key r cs) :
    (∃ out r', (⟨.readKV key out, r'⟩ : Call) ∈ cs ∧ Failed r'.1) ↔ Failed r.1 := by
  have hstore (r : Status × ReadOut) :
      (∃ out r', (⟨.readKV key out, r'⟩ : Call) ∈ [⟨.readKV key {}, r⟩] ∧ Failed r'.1) ↔ Failed r.1 := by
    constructor
    · rintro ⟨out, r', hmem, hf⟩
      cases mem_singleton.mp hmem
      exact hf
    · exact fun hf => ⟨{}, r, mem_singleton_self _, hf⟩
  cases h with
  | proxy _ r => exact hstore r
  | overlay _ hread =>
    cases hread with
    | deleted => exact ⟨nofun, fun hf => absurd hf (not_failed_of_isNotFound rfl)⟩
    | store hfree r => exact hstore r
    | lapsed => exact ⟨by rintro ⟨_, _, hmem, -⟩; simp at hmem, fun hf => absurd hf (not_failed_of_isNotFound rfl)⟩
    | own => exact ⟨by rintro ⟨_, _, hmem, -⟩; simp at hmem, fun hf => absurd hf (not_failed_of_isOK rfl)⟩

theorem not_readKV_of_returnsMeta {fromProxy isMetaReturned : Bool} {out : ReadOut} {v : Event}
    (h : ReturnsMeta fromProxy isMetaReturned key out v cs) (out' : ReadOut) (r : Status × ReadOut) :
    (⟨.readKV key out', r⟩ : Call) ∉ cs := by
  cases h with
  | plain => exact not_mem_nil
  | store => simp
  | proxy => simp

end Calls

section Entries

variable {req : TransRequest} {cond : CondState} {curTime : ℕ} {st st' : LoopState} {entry : Entry} {cs : List Call}

/-- What an entry leaves: an error that ends the loop, the error of a removal, which does not, or its event. -/
def Leaves (cond : CondState) (entry : Entry) (cs : List Call) (st st' : LoopState) : Prop :=
  (st'.stop = true ∧ Failed st'.status ∧ st'.events = st.events ∧ ∀ after, Refuses cond cs after entry) ∨
  (st'.stop = false ∧ Failed st'.status ∧ st'.events = st.events ∧ (∃ e, entry = .remove e) ∧ ∃ c ∈ cs, Erred c) ∨
  (st'.stop = false ∧ (∃ e, Answers entry e ∧ st'.events = st.events ++ [e]) ∧
    (∀ after, ¬ Refuses cond cs after entry) ∧
    (IgnoredPut cond entry ∧ st'.status = st.status ∨ ¬ IgnoredPut cond entry ∧ ¬ Failed st'.status))

theorem leaves_of_executes (h : Executes req cond curTime st entry st' cs) (hstop : st.stop = false) :
    Leaves cond entry cs st st' := by
  cases h with
  | @ignored e h =>
    exact .inr (.inr ⟨hstop, ⟨ignoredEvent e, trivial, rfl⟩, fun _ hr => hr.1 h, .inl ⟨h, rfl⟩⟩)
  | unsettled h hfix =>
    obtain ⟨hs, herred⟩ := erred_of_fixesTTL hfix
    exact .inl ⟨rfl, hs, rfl, fun _ => ⟨h, .inl herred⟩⟩
  | mismatch h hfix hm hne => exact .inl ⟨rfl, ⟨rfl, rfl⟩, rfl, fun _ => ⟨h, .inr ⟨_, hm, hne⟩⟩⟩
  | @put e h x cs hfix hsame now =>
    refine .inr (.inr ⟨hstop, ⟨.write (newWriteEvent e x.1 x.2 curTime now), trivial, rfl⟩, fun _ hr => ?_,
      .inr ⟨h, not_failed_of_isOK rfl⟩⟩)
    rcases hr.2 with ⟨c, hc, herred⟩ | ⟨m, hm, hne⟩
    · rcases mem_append.mp hc with hc | hc
      · exact not_erred_of_fixesTTL hfix c hc herred
      · rw [mem_singleton.mp hc] at herred
        exact herred
    · rw [hsame m hm] at hne
      cases hne
  | @missing e s out cs hread hs =>
    refine .inr (.inr ⟨hstop, ⟨notFoundEvent e.key out, trivial, rfl⟩, fun _ hr => ?_,
      .inr ⟨id, not_failed_of_isNotFound hs⟩⟩)
    exact not_failed_of_isNotFound hs ((readKV_iff_of_entryReads hread).mp hr)
  | @found e s out cs hread hs v ds hmeta =>
    have hv : Answers (.read e) v := by cases hmeta <;> trivial
    refine .inr (.inr ⟨hstop, ⟨v, hv, rfl⟩, fun _ hr => ?_, .inr ⟨id, not_failed_of_isOK hs⟩⟩)
    obtain ⟨out', r, hmem, hf⟩ := hr
    rcases mem_append.mp hmem with hmem | hmem
    · exact not_failed_of_isOK hs ((readKV_iff_of_entryReads hread).mp ⟨out', r, hmem, hf⟩)
    · exact not_readKV_of_returnsMeta hmeta out' r hmem
  | unread hread hs => exact .inl ⟨rfl, hs, rfl, fun _ => (readKV_iff_of_entryReads hread).mpr hs⟩
  | @absent e s out t cs hread hs =>
    refine .inr (.inr ⟨hstop, ⟨notFoundEvent e.key out, rfl, rfl⟩, fun _ hr => ?_,
      .inr ⟨id, not_failed_of_isNotFound hs⟩⟩)
    exact not_failed_of_isNotFound hs ((erred_iff_of_overlayReads hread).mp hr.1)
  | @removed e s out t cs hread hs =>
    have hv : Answers (.remove e) (removeEvent e out out.value) := by
      unfold removeEvent
      split_ifs
      · rfl
      · trivial
    refine .inr (.inr ⟨hstop, ⟨_, hv, rfl⟩, fun _ hr => ?_, .inr ⟨id, not_failed_of_isOK hs⟩⟩)
    exact not_failed_of_isOK hs ((erred_iff_of_overlayReads hread).mp hr.1)
  | lost hread hs => exact .inr (.inl ⟨hstop, hs, rfl, ⟨_, rfl⟩, (erred_iff_of_overlayReads hread).mpr hs⟩)
  | unset => exact .inl ⟨rfl, ⟨rfl, rfl⟩, rfl, fun _ => trivial⟩

variable {σ : Type} {answer : σ → (o : StoreOp) → o.Res × σ} {s s' : σ}

theorem inside_of_executes (h : Executes req cond curTime st entry st' cs) : Inside cond cs entry := by
  intro hno
  cases h with
  | ignored h => exact fun hnot => absurd h hnot
  | unsettled h hfix =>
    obtain ⟨-, c, hc, herred⟩ := erred_of_fixesTTL hfix
    exact absurd herred (hno c hc)
  | mismatch h hfix hm hne =>
    intro _ m hm'
    cases hm.symm.trans hm'
    rw [hne]
    rfl
  | put h hfix hsame now =>
    intro _ m hm
    rw [hsame m hm]
    rfl
  | _ => trivial

theorem exists_run_of_ends {α : Type} {p : StoreProg α} (hp : p.Ensures (fun _ _ => True) fun _ => True) (s : σ) :
    ∃ a t, p.run answer s = some (a, t) := by
  obtain ⟨a, t, hrun, -⟩ := hp.run (I := fun _ => True) (fun _ _ _ => ⟨trivial, trivial⟩) trivial
  exact ⟨a, t, hrun⟩

/-- A write whose ttl cannot be read ends before the comparison. -/
theorem exists_run_execEntry (h : Inside cond ((execEntry req cond curTime st entry).calls answer s) entry) :
    ∃ st' s', (execEntry req cond curTime st entry).run answer s = some (st', s') := by
  by_cases hinside : StaysInside cond entry
  · exact exists_run_of_ends (ends_execEntry st hinside) s
  cases entry with
  | write e =>
    simp only [StaysInside, not_forall] at hinside
    obtain ⟨hfree, m, hm, hnone⟩ := hinside
    obtain ⟨r, t, hfix⟩ : ∃ r t, (fixTTL e.key e.enableTTL (if e.enableTTL then e.ttl else INFINITE_TTL)).run
        answer s = some (r, t) := exists_run_of_ends (ends_fixTTL _ _ _) s
    have hfixes := fixesTTL_of_leads (Program.leads_of_run hfix)
    rw [execEntry, writeEntry, if_neg hfree] at h ⊢
    cases r with
    | error status => exact ⟨_, _, Program.run_bind_eq_some.mpr ⟨_, _, hfix, rfl⟩⟩
    | ok x =>
      refine absurd (h fun c hc => ?_) ?_
      · rw [Program.calls_bind, hfix] at hc
        rcases mem_append.mp hc with hc | hc
        · exact not_erred_of_fixesTTL hfixes c hc
        · simp only [elim_some, hm] at hc
          rw [not_isSome_iff_eq_none.mp hnone] at hc
          cases hc
      · intro hin
        exact hnone (hin hfree m hm)
  | _ => exact absurd trivial hinside

end Entries

section Loop

variable {σ : Type} {answer : σ → (o : StoreOp) → o.Res × σ} {req : TransRequest} {cond : CondState} {curTime : ℕ}
  {entries : List Entry} {st st' : LoopState} {s s' : σ}

theorem exists_run_execEntries_iff :
    (∃ st' s', (execEntries req cond curTime entries st).run answer s = some (st', s')) ↔
      ∀ entry after st₁ s₁, Reaches answer req cond curTime entries st s entry after st₁ s₁ →
        Inside cond ((execEntry req cond curTime st₁ entry).calls answer s₁) entry := by
  induction entries generalizing st s with
  | nil =>
    constructor
    · rintro - entry after st₁ s₁ ⟨⟩
    · exact fun _ => ⟨st, s, rfl⟩
  | cons first rest ih =>
    constructor
    · rintro ⟨st', s', hrun⟩ entry after st₁ s₁ hreach
      obtain ⟨st₂, s₂, hone, hexecutes, hend⟩ := run_execEntries_cons hrun
      rcases reaches_cons.mp hreach with ⟨rfl, -, rfl, rfl⟩ | ⟨st₃, s₃, hone', hgo, hlater⟩
      · exact inside_of_executes hexecutes
      · cases hone.symm.trans hone'
        rcases hend with ⟨hstop, -⟩ | ⟨-, hrest⟩
        · cases hgo.symm.trans hstop
        · exact ih.mp ⟨_, _, hrest⟩ entry after st₁ s₁ hlater
    · intro h
      obtain ⟨st₁, s₁, hone⟩ := exists_run_execEntry (h first rest st s (.here ..))
      cases hstop : st₁.stop with
      | true => exact ⟨st₁, s₁, Program.run_bind_eq_some.mpr ⟨st₁, s₁, hone, by simp [hstop]⟩⟩
      | false =>
        obtain ⟨st', s', hrest⟩ := ih.mpr fun entry after st₂ s₂ hreach =>
          h entry after st₂ s₂ (.next hone hstop hreach)
        exact ⟨st', s', Program.run_bind_eq_some.mpr ⟨st₁, s₁, hone, by simpa [hstop] using hrest⟩⟩

/-- The loop ends in failure at an entry that refuses, or behind ignored puts that leave an earlier failure as it is. -/
theorem failed_iff (hrun : (execEntries req cond curTime entries st).run answer s = some (st', s'))
    (hstop : st.stop = false) :
    Failed st'.status ↔ (∃ entry after st₁ s₁, Reaches answer req cond curTime entries st s entry after st₁ s₁ ∧
        Refuses cond ((execEntry req cond curTime st₁ entry).calls answer s₁) after entry) ∨
      Failed st.status ∧ ∀ entry ∈ entries, IgnoredPut cond entry := by
  induction entries generalizing st s with
  | nil =>
    cases hrun
    exact ⟨fun h => .inr ⟨h, by simp⟩, fun h => h.elim (fun ⟨_, _, _, _, hreach, _⟩ => by cases hreach) And.left⟩
  | cons first rest ih =>
    obtain ⟨st₁, s₁, hone, hexecutes, hend⟩ := run_execEntries_cons hrun
    -- what is reached is the first entry or what is reached behind it
    have hsplit : (∃ entry after st₂ s₂, Reaches answer req cond curTime (first :: rest) st s entry after st₂ s₂ ∧
          Refuses cond ((execEntry req cond curTime st₂ entry).calls answer s₂) after entry) ↔
        Refuses cond ((execEntry req cond curTime st first).calls answer s) rest first ∨ st₁.stop = false ∧
          ∃ entry after st₂ s₂, Reaches answer req cond curTime rest st₁ s₁ entry after st₂ s₂ ∧
            Refuses cond ((execEntry req cond curTime st₂ entry).calls answer s₂) after entry := by
      constructor
      · rintro ⟨entry, after, st₂, s₂, hreach, hrefuses⟩
        rcases reaches_cons.mp hreach with ⟨rfl, rfl, rfl, rfl⟩ | ⟨st₃, s₃, hone', hgo, hlater⟩
        · exact .inl hrefuses
        · cases hone.symm.trans hone'
          exact .inr ⟨hgo, entry, after, st₂, s₂, hlater, hrefuses⟩
      · rintro (hrefuses | ⟨hgo, entry, after, st₂, s₂, hlater, hrefuses⟩)
        · exact ⟨first, rest, st, s, .here .., hrefuses⟩
        · exact ⟨entry, after, st₂, s₂, .next hone hgo hlater, hrefuses⟩
    rw [hsplit, forall_mem_cons]
    rcases leaves_of_executes hexecutes hstop with ⟨hstopped, hfailed, -, hrefuses⟩ |
      ⟨hgo, hfailed, -, ⟨e, rfl⟩, herred⟩ | ⟨hgo, -, hrefuses, hstatus⟩
    · rcases hend with ⟨-, rfl, -⟩ | ⟨hgo, -⟩
      · exact iff_of_true hfailed (.inl (.inl (hrefuses rest)))
      · cases hgo.symm.trans hstopped
    · obtain ⟨-, hrest⟩ := hend.resolve_left fun h => by cases hgo.symm.trans h.1
      rw [ih hrest hgo]
      constructor
      · rintro (h | ⟨-, hall⟩)
        · exact .inl (.inr ⟨hgo, h⟩)
        · exact .inl (.inl ⟨herred, hall⟩)
      · rintro ((⟨-, hall⟩ | ⟨-, h⟩) | ⟨-, h, -⟩)
        · exact .inr ⟨hfailed, hall⟩
        · exact .inl h
        · exact h.elim
    · obtain ⟨-, hrest⟩ := hend.resolve_left fun h => by cases hgo.symm.trans h.1
      rw [ih hrest hgo]
      constructor
      · rintro (h | ⟨hf, hall⟩)
        · exact .inl (.inr ⟨hgo, h⟩)
        · rcases hstatus with ⟨hignored, heq⟩ | ⟨-, hok⟩
          · exact .inr ⟨heq ▸ hf, hignored, hall⟩
          · exact absurd hf hok
      · rintro ((h | ⟨-, h⟩) | ⟨hf, hignored, hall⟩)
        · exact absurd h (hrefuses rest)
        · exact .inl h
        · rcases hstatus with ⟨-, heq⟩ | ⟨hnot, -⟩
          · exact .inr ⟨heq.symm ▸ hf, hall⟩
          · exact absurd hignored hnot

/-- Every entry leaves an event, unless the store has reported an error for it. -/
theorem answers_of_not_failed (hrun : (execEntries req cond curTime entries st).run answer s = some (st', s'))
    (hstop : st.stop = false) (hok : ¬ Failed st'.status)
    (hno : ∀ entry after st₁ s₁, Reaches answer req cond curTime entries st s entry after st₁ s₁ →
      ∀ c ∈ (execEntry req cond curTime st₁ entry).calls answer s₁, ¬ Erred c) :
    ∃ events, st'.events = st.events ++ events ∧ List.Forall₂ Answers entries events := by
  induction entries generalizing st s with
  | nil =>
    cases hrun
    exact ⟨[], by simp, .nil⟩
  | cons first rest ih =>
    obtain ⟨st₁, s₁, hone, hexecutes, hend⟩ := run_execEntries_cons hrun
    rcases leaves_of_executes hexecutes hstop with ⟨hstopped, hfailed, -⟩ | ⟨-, -, -, -, c, hc, herred⟩ |
      ⟨hgo, ⟨e, he, hevents⟩, -⟩
    · rcases hend with ⟨-, rfl, -⟩ | ⟨hgo, -⟩
      · exact absurd hfailed hok
      · cases hgo.symm.trans hstopped
    · exact absurd herred (hno first rest st s (.here ..) c hc)
    · obtain ⟨-, hrest⟩ := hend.resolve_left fun h => by cases hgo.symm.trans h.1
      obtain ⟨events, hst', hanswers⟩ := ih hrest hgo fun entry after st₂ s₂ hreach =>
        hno entry after st₂ s₂ (.next hone hgo hreach)
      exact ⟨e :: events, by simp [hst', hevents], .cons he hanswers⟩

/-- A loop that leaves no event had no entry or has failed. -/
theorem nil_or_failed (hrun : (execEntries req cond curTime entries st).run answer s = some (st', s'))
    (hstop : st.stop = false) :
    ∃ events, st'.events = st.events ++ events ∧ (events = [] → entries = [] ∨ Failed st'.status) := by
  induction entries generalizing st s with
  | nil =>
    cases hrun
    exact ⟨[], by simp, fun _ => .inl rfl⟩
  | cons first rest ih =>
    obtain ⟨st₁, s₁, hone, hexecutes, hend⟩ := run_execEntries_cons hrun
    rcases hend with ⟨hstopped, rfl, -⟩ | ⟨hgo, hrest⟩
    · rcases leaves_of_executes hexecutes hstop with ⟨-, hfailed, hevents, -⟩ | ⟨hgo, -⟩ | ⟨hgo, -⟩
      · exact ⟨[], by simp [hevents], fun _ => .inr hfailed⟩
      · cases hgo.symm.trans hstopped
      · cases hgo.symm.trans hstopped
    · obtain ⟨events, hst', hnil⟩ := ih hrest hgo
      rcases leaves_of_executes hexecutes hstop with ⟨hstopped, -⟩ | ⟨-, hfailed, hevents, -⟩ | ⟨-, ⟨e, -, hevents⟩, -⟩
      · cases hgo.symm.trans hstopped
      · refine ⟨events, by rw [hst', hevents], fun hnone => .inr ?_⟩
        rcases hnil hnone with rfl | hfailed'
        · cases hrest
          exact hfailed
        · exact hfailed'
      · exact ⟨e :: events, by simp [hst', hevents], nofun⟩

end Loop

section Conditions

theorem compareUint_status {s : Status} (hs : s.isNotFound = false) (st : CondState) (key : KeyType)
    (expected provided : UserDefinedMeta) (pos : ℕ) (op : CompareOp) :
    (compareUint s st key expected provided pos op).Obeys (fun _ => True) (fun _ _ => True) fun r =>
      r.status.isNotFound = false := by
  unfold compareUint
  by_cases h₁ : expected.uintField = [] ∧ pos ≥ provided.uintField.length
  · rw [if_pos h₁]
    rfl
  rw [if_neg h₁]
  by_cases h₂ : expected.uintField ≠ [] ∧ (pos ≥ expected.uintField.length ∨ pos ≥ provided.uintField.length)
  · rw [if_pos h₂]
    rfl
  rw [if_neg h₂]
  split
  · split_ifs
    · exact hs
    · exact hs
    · rfl
  · trivial

theorem checkCond_status (fromProxy : Bool) (st : CondState) (cond : Precondition) :
    (checkCond fromProxy st cond).Obeys (fun _ => True) (fun _ _ => True) fun r => r.status.isNotFound = false := by
  have hany {α : Type} (p : StoreProg α) : p.Obeys (fun _ => True) (fun _ _ => True) fun _ => True :=
    Program.obeys_of_true p fun _ => trivial
  cases cond with
  | versionCond key version op =>
    refine (hany _).bind ?_
    rintro ⟨s, out⟩ -
    dsimp only
    split_ifs with hnok
    · rfl
    · rfl
    · exact isNotFound_of_isOK (by simpa using hnok)
    · rfl
  | existCond key shouldExist =>
    refine (hany _).bind ?_
    rintro ⟨s, out⟩ -
    dsimp only
    split_ifs <;> rfl
  | userMetaCond key metaType m pos op =>
    rw [checkCond, checkUserMetaCond]
    by_cases hseen : key ∈ st.udfKeySet
    · rw [if_pos hseen]
      rfl
    rw [if_neg hseen]
    refine (hany _).bind ?_
    rintro ⟨s, out⟩ -
    dsimp only
    by_cases hnf : s.isNotFound = true
    · rw [if_pos hnf]
      rfl
    rw [if_neg hnf]
    refine (hany _).bind ?_
    rintro ⟨s, info⟩ -
    dsimp only
    cases info.udfMeta with
    | none => rfl
    | some stored =>
      dsimp only
      split_ifs with hgone
      · rfl
      · exact compareUint_status (by simpa using hgone) ..
      · rfl
  | unset => rfl

/-- However the store answers, the conditions end with another status than a missing key. -/
theorem checkPrecond_status (fromProxy : Bool) (conds : List Precondition) {s : Status} (hs : s.isNotFound = false)
    (st : CondState) :
    (checkPrecond fromProxy conds s st).Obeys (fun _ => True) (fun _ _ => True) fun r => r.1.isNotFound = false := by
  induction conds generalizing s st with
  | nil => exact hs
  | cons cond conds ih =>
    refine (checkCond_status fromProxy st cond).bind fun r hr => ?_
    split_ifs
    · exact hr
    · exact ih hr r.state

end Conditions

/-- The command is answered with an error, and neither the log nor the reply loop gets anything of it. -/
def Refused (c : Command) (v : VersionStore) (r : ExecResult) : Prop :=
  ∃ d response, (if c.isFollowerReadCmd then dispatchFollowerRead c v r else dispatch c v r) = some d ∧
    d.outcome = none ∧ errorReply c d.versions r = some response ∧ response.code ≠ .OK

theorem refused_of_failed {r : ExecResult} (h : Failed r.status) (req : TransRequest) (v : VersionStore) :
    Refused (KVTransCommand req) v r := by
  have hfail : hasFailed r = true := by simp [hasFailed, h.1, h.2]
  have hcode : toResponseCode r.status ≠ .OK := by
    rw [Ne, toResponseCode_eq_OK, h.1]
    exact Bool.false_ne_true
  refine ⟨⟨none, r.events, v⟩, _, ?_, rfl, rfl, hcode⟩
  simp [dispatchFollowerRead, dispatch, hfail]

theorem failed_of_refused {r : ExecResult} {c : Command} {v : VersionStore} (h : Refused c v r) :
    hasFailed r = true := by
  obtain ⟨d, response, hd, hnone, -⟩ := h
  by_contra hok
  split_ifs at hd
  · simp only [dispatchFollowerRead, hok, if_false] at hd
    obtain ⟨version, -, hd⟩ := bind_eq_some_iff.mp hd
    obtain ⟨response', -, hd⟩ := bind_eq_some_iff.mp hd
    cases hd
    cases hnone
  · simp only [dispatch, hok, if_false] at hd
    obtain ⟨expected, -, hd⟩ := bind_eq_some_iff.mp hd
    split_ifs at hd
    · obtain ⟨events, -, hd⟩ := bind_eq_some_iff.mp hd
      obtain ⟨response', -, hd⟩ := bind_eq_some_iff.mp hd
      cases hd
      cases hnone
    · obtain ⟨response', -, hd⟩ := bind_eq_some_iff.mp hd
      cases hd
      cases hnone

section Transactions

variable {σ : Type} (answer : σ → (o : StoreOp) → o.Res × σ) (req : TransRequest) (s : σ)

/-- The store reports an error for an entry that the transaction gets to. -/
def SeesError : Prop :=
  ∃ cond curTime entry after st t, Reached answer req cond curTime s entry after st t ∧
    ∃ c ∈ (execEntry req cond curTime st entry).calls answer t, Erred c

/-- The transaction gets to an entry that makes it fail. -/
def GetsRefused : Prop :=
  ∃ cond curTime entry after st t, Reached answer req cond curTime s entry after st t ∧
    Refuses cond ((execEntry req cond curTime st entry).calls answer t) after entry

variable {answer req s}

theorem reached_iff {status : Status} {cond cond' : CondState} {t u : σ} {curTime : ℕ} {entry : Entry}
    {after : List Entry} {st : LoopState}
    (hpre : (checkPrecond (isFollowerReadCmd req) req.preconds .ok {}).run answer s = some ((status, cond), t))
    (hok : status.isOK = true) :
    Reached answer req cond' curTime s entry after st u ↔ cond' = cond ∧ curTime = (answer t .secondsSinceEpoch).1 ∧
      Reaches answer req cond curTime req.entries { status := status }
        (answer t .secondsSinceEpoch).2 entry after st u := by
  constructor
  · rintro ⟨status', t', hpre', -, rfl, hreach⟩
    cases hpre.symm.trans hpre'
    exact ⟨rfl, rfl, hreach⟩
  · rintro ⟨rfl, rfl, hreach⟩
    exact ⟨status, t, hpre, hok, rfl, hreach⟩

/-- The entries of a transaction whose preconditions hold have failed if one of them refuses it. -/
theorem failed_iff_getsRefused {status : Status} {cond : CondState} {t u : σ} {st : LoopState}
    (hpre : (checkPrecond (isFollowerReadCmd req) req.preconds .ok {}).run answer s = some ((status, cond), t))
    (hok : status.isOK = true)
    (hrun : (execEntries req cond (answer t .secondsSinceEpoch).1 req.entries { status := status }).run answer
      (answer t .secondsSinceEpoch).2 = some (st, u)) : Failed st.status ↔ GetsRefused answer req s := by
  rw [failed_iff hrun rfl]
  constructor
  · rintro (⟨entry, after, st₁, s₁, hreach, hrefuses⟩ | ⟨hfailed, -⟩)
    · exact ⟨_, _, entry, after, st₁, s₁, (reached_iff hpre hok).mpr ⟨rfl, rfl, hreach⟩, hrefuses⟩
    · exact absurd hfailed (not_failed_of_isOK hok)
  · rintro ⟨_, _, entry, after, st₁, s₁, hreached, hrefuses⟩
    obtain ⟨rfl, rfl, hreach⟩ := (reached_iff hpre hok).mp hreached
    exact .inl ⟨entry, after, st₁, s₁, hreach, hrefuses⟩

variable (answer req s)

/-- An error for an entry refuses the transaction, and a transaction that does not end with an error has one event for
each entry, of the kind that is answered. -/
theorem entry_errors_reported_iff :
    (∃ r u, (KVTransCommand req).execute.run answer s = some (r, u) ∧
      (SeesError answer req s → ∀ v, Refused (KVTransCommand req) v r) ∧
      (r.status.isOK ∨ r.status.isNotFound → List.Forall₂ Answers req.entries r.events)) ↔
    ((checkPrecond (isFollowerReadCmd req) req.preconds .ok {}).run answer s).isSome ∧
      (∀ cond curTime entry after st t, Reached answer req cond curTime s entry after st t →
        Inside cond ((execEntry req cond curTime st entry).calls answer t) entry) ∧
      (SeesError answer req s → GetsRefused answer req s) := by
  cases hpre : (checkPrecond (isFollowerReadCmd req) req.preconds .ok {}).run answer s with
  | none =>
    refine iff_of_false ?_ (by simp)
    rintro ⟨r, u, hrun, -⟩
    rcases run_execute hrun with ⟨_, _, hpre', -⟩ | ⟨_, _, _, _, hpre', -⟩
    · cases hpre.symm.trans hpre'
    · cases hpre.symm.trans hpre'
  | some x =>
    obtain ⟨⟨status, cond⟩, t⟩ := x
    cases hok : status.isOK with
    | false =>
      have hnone (cond' curTime entry after st u) : ¬ Reached answer req cond' curTime s entry after st u := by
        rintro ⟨status', t', hpre', hok', -⟩
        cases hpre.symm.trans hpre'
        cases hok.symm.trans hok'
      have herr : ¬ SeesError answer req s := fun ⟨_, _, _, _, _, _, hreached, _⟩ => hnone _ _ _ _ _ _ hreached
      obtain ⟨hfound, -⟩ := (checkPrecond_status (isFollowerReadCmd req) req.preconds Status.isNotFound_ok {}).run
        (I := fun _ => True) (fun _ _ _ _ => ⟨trivial, trivial⟩) trivial hpre
      refine iff_of_true ⟨{ status := status, ignoredPutKeys := cond.ignoredUdfUintKeys }, t, ?_,
        fun h => absurd h herr, fun h => ?_⟩
        ⟨rfl, fun _ _ _ _ _ _ h => absurd h (hnone _ _ _ _ _ _), fun h => absurd h herr⟩
      · exact Program.run_bind_eq_some.mpr ⟨_, _, hpre, by simp [hok]⟩
      · rcases h with h | h
        · cases hok.symm.trans h
        · cases hfound.symm.trans h
    | true =>
      constructor
      · rintro ⟨r, u, hrun, hrefused, -⟩
        rcases run_execute hrun with ⟨_, _, hpre', hno, -⟩ | ⟨_, _, _, st, hpre', -, hloop, rfl⟩
        · cases hpre.symm.trans hpre'
          cases hok.symm.trans hno
        cases hpre.symm.trans hpre'
        refine ⟨rfl, fun cond' curTime entry after st₁ s₁ hreached => ?_, fun herr => ?_⟩
        · obtain ⟨rfl, rfl, hreach⟩ := (reached_iff hpre hok).mp hreached
          exact exists_run_execEntries_iff.mp ⟨_, _, hloop⟩ entry after st₁ s₁ hreach
        · refine (failed_iff_getsRefused hpre hok hloop).mp ?_
          obtain ⟨events, hevents, hnil⟩ := nil_or_failed hloop rfl
          have hfail := failed_of_refused (hrefused herr {})
          by_contra hst
          have hempty : events = [] := by
            by_contra hne
            refine hst ⟨?_, ?_⟩ <;> by_contra h <;> simp [hasFailed, hevents, hne, h] at hfail
          rcases hnil hempty with hentries | hfailed
          · obtain ⟨_, _, _, _, _, _, hreached, -⟩ := herr
            obtain ⟨-, -, hreach⟩ := (reached_iff hpre hok).mp hreached
            rw [hentries] at hreach
            cases hreach
          · exact hst hfailed
      · rintro ⟨-, hinside, hrefuses⟩
        obtain ⟨st, u, hloop⟩ := exists_run_execEntries_iff.mpr fun entry after st₁ s₁ hreach =>
          hinside cond _ entry after st₁ s₁ ((reached_iff hpre hok).mpr ⟨rfl, rfl, hreach⟩)
        have hfailed := failed_iff_getsRefused hpre hok hloop
        refine ⟨{ status := st.status, events := st.events, ignoredPutKeys := cond.ignoredUdfUintKeys }, u, ?_,
          fun herr => refused_of_failed (hfailed.mpr (hrefuses herr)) req, fun hstatus => ?_⟩
        · refine Program.run_bind_eq_some.mpr ⟨_, _, hpre, ?_⟩
          simp only [hok, Bool.not_true, Bool.false_eq_true, if_false]
          exact Program.run_bind_eq_some.mpr ⟨_, _, rfl, Program.run_bind_eq_some.mpr ⟨st, u, hloop, rfl⟩⟩
        · have hgood : ¬ Failed st.status := hstatus.elim not_failed_of_isOK not_failed_of_isNotFound
          obtain ⟨events, hevents, hanswers⟩ := answers_of_not_failed hloop rfl hgood
            fun entry after st₁ s₁ hreach c hc herred => hgood (hfailed.mpr (hrefuses
              ⟨cond, _, entry, after, st₁, s₁, (reached_iff hpre hok).mpr ⟨rfl, rfl, hreach⟩, c, hc, herred⟩))
          simpa [hevents] using hanswers

end Transactions

/-- RocksDB reports an error for one key. -/
def unreadable : Stores := { db := { mGetError := fun key => if key = "a" then some "IO error" else none } }

/-- A store that finds every key but cannot read its meta. -/
def withoutMetas (s : Unit) : (o : StoreOp) → o.Res × Unit
  | .readKV _ _ => ((.ok, ⟨"v", 0, 1⟩), s)
  | .readKVFromProxy _ _ => ((.ok, ⟨"v", 0, 1⟩), s)
  | .readMeta _ => ((.error "corrupted payload", {}), s)
  | .readMetaFromProxy _ => ((.error "corrupted payload", {}), s)
  | .secondsSinceEpoch => (0, s)

/-- The error of a removal is overwritten by the put behind it, which leaves one event for two entries and fails
the assertion of the response; the error of a meta is not looked at. -/
theorem entry_errors_lost :
    (∃ r u, (KVTransCommand { entries := [.remove ⟨"a", 0⟩, .write { key := "b", value := "1" }] }).execute.run
        Stores.answer unreadable = some (r, u) ∧ r.status.isOK ∧ r.events.length = 1 ∧
      (dispatch (KVTransCommand { entries := [.remove ⟨"a", 0⟩, .write { key := "b", value := "1" }] }) {} r).isNone) ∧
    ∃ r u, (KVTransCommand { entries := [.read ⟨"a"⟩], isMetaReturned := true }).execute.run withoutMetas () =
        some (r, u) ∧ r.status.isOK ∧
      ∃ d version response, dispatch (KVTransCommand { entries := [.read ⟨"a"⟩], isMetaReturned := true }) {} r =
        some d ∧ d.outcome = some (.replyAsync version response) ∧ response.code = .OK := by
  refine ⟨⟨_, _, rfl, rfl, rfl, rfl⟩, ⟨_, _, rfl, rfl, _, _, _, rfl, rfl, rfl⟩⟩

end Goblin.Execution.TransErrors
