import Goblin.Command.PrecondExact
import Goblin.Execution.KVEngine
import Goblin.Execution.Serial

/-! Which requests cannot make the server fail an assertion, now or when what they have stored is read. -/
namespace Goblin.Store

open Model Lib Lib.Wire RocksDBKVStore List Option

/-- What the user defined fields take when they are serialized. -/
def udfSize (m : UserDefinedMeta) : ℕ := (Goblin.Proto.UserDefinedMeta.message.encode (udfProto m)).length

/-- A record that is read back: its meta fits into the 127 bytes that the header can count, whatever its version
and times are. -/
structure Record.Small (r : Record) : Prop where
  udfMeta : udfSize r.udfMeta ≤ 94
  value : (bytesOf r.value).length ≤ 5000000

section Small

theorem length_encode_info {info : Goblin.Proto.Meta} (hop : info.opType = .SINGLE)
    (hudf : ∀ m, info.udfMeta = some m → (Goblin.Proto.UserDefinedMeta.message.encode m).length ≤ 94) :
    (Goblin.Proto.Meta.message.encode info).length ≤ 127 := by
  have htype : (field.writeAll (optional 1 info.dataType.toNat)).length ≤ 2 :=
    length_optional_write_le 1 (by omega) Nat.one_pos (by cases info.dataType <;> decide)
  have hversion : (field.writeAll (optional 2 info.version.toNat)).length ≤ 11 :=
    length_optional_write_le 2 (k := 10) (by omega) (by omega)
      (Nat.lt_of_lt_of_le info.version.toNat_lt (by decide))
  have htime (number : ℕ) (time : UInt32) (hnumber : number < 16) :
      (field.writeAll (optional number time.toNat)).length ≤ 6 :=
    length_optional_write_le number (k := 5) hnumber (by omega) (Nat.lt_of_lt_of_le time.toNat_lt (by decide))
  have hop' : optional 5 info.opType.toNat = [] := by
    rw [hop]
    rfl
  have hudf' : (field.writeAll (Goblin.Proto.Meta.udfFields info.udfMeta)).length ≤ 96 := by
    cases hm : info.udfMeta with
    | none => exact Nat.zero_le _
    | some m =>
      have hle := hudf m hm
      have hlength : (Field.bytes 7 (Goblin.Proto.UserDefinedMeta.message.encode m)).write.length ≤
          1 + 1 + (Goblin.Proto.UserDefinedMeta.message.encode m).length :=
        Field.length_write_bytes_le (by omega) Nat.one_pos (by omega)
      rw [Goblin.Proto.Meta.udfFields, Codec.writeAll_singleton]
      exact Nat.le_trans hlength (by omega)
  have httl := htime 3 info.ttl (by omega)
  have hdeadline := htime 4 info.deadline (by omega)
  have hupdate := htime 6 info.updateTime (by omega)
  simp only [Message.encode, Goblin.Proto.Meta.message, Goblin.Proto.Meta.fields, Codec.writeAll_append,
    length_append, hop', Codec.writeAll_nil, length_nil]
  omega

theorem length_encode_data {value : Bytes} (h : value.length ≤ 5000000) :
    (Goblin.Proto.Data.message.encode (.singleValue value)).length < 2 ^ 31 := by
  have hinner : (Goblin.Proto.SingleValue.message.encode value).length ≤ 5 + value.length := by
    change (field.writeAll (if value = [] then [] else [.bytes 1 value])).length ≤ _
    split_ifs
    · exact Nat.zero_le _
    · rw [Codec.writeAll_singleton]
      exact Field.length_write_bytes_le (k := 4) (by omega) (by omega) (by omega)
  have houter : (Field.bytes 2 (Goblin.Proto.SingleValue.message.encode value)).write.length ≤
      1 + 4 + (Goblin.Proto.SingleValue.message.encode value).length :=
    Field.length_write_bytes_le (by omega) (by omega) (by omega)
  have hencode : Goblin.Proto.Data.message.encode (.singleValue value) =
      (Field.bytes 2 (Goblin.Proto.SingleValue.message.encode value)).write :=
    Codec.writeAll_singleton ..
  rw [hencode]
  omega

theorem Record.Small.readable {r : Record} (h : r.Small) : r.Readable := by
  have hudf : ∀ m, addUdfMeta (udfProto r.udfMeta) = some m →
      (Goblin.Proto.UserDefinedMeta.message.encode m).length ≤ 94 := by
    intro m hm
    unfold addUdfMeta at hm
    split_ifs at hm
    cases hm
    exact h.udfMeta
  unfold Record.Readable Record.payload
  split_ifs
  · exact ⟨length_encode_info rfl hudf, length_encode_data h.value⟩
  · exact ⟨length_encode_info rfl hudf, length_encode_data h.value⟩

end Small

end Goblin.Store

namespace Goblin.Execution

open Model Store Lib Lib.Wire KVTransCommand List Option

/-- Some number of the condition is compared with a stored one. -/
def Compares (preconds : List Precondition) (key : KeyType) : Prop :=
  ∃ m pos op, .userMetaCond key .NUM m pos op ∈ preconds ∧ pos < m.uintField.length

/-- Answers that hold numbers wherever a condition compares them. -/
def HasNumbers (preconds : List Precondition) : (o : StoreOp) → o.Res → Prop
  | .readMeta key, r => ∀ m, r.2.udfMeta = some m → Compares preconds key → m.uintField ≠ []
  | .readMetaFromProxy key, r => ∀ m, r.2.udfMeta = some m → Compares preconds key → m.uintField ≠ []
  | _, _ => True

def Numbered (preconds : List Precondition) (o : StoreOp) (r : o.Res) : Prop :=
  ¬ Erred ⟨o, r⟩ ∧ HasNumbers preconds o r

/-- A status that is not answered with a route. -/
def Unrouted (s : Status) : Prop := s.code ≠ .wrongRoute ∧ s.code ≠ .migratedRoute

theorem clean_of_not_failed {s : Status} (h : ¬ Failed s) : s.isOK ∨ s.isNotFound := by
  by_contra hn
  rw [not_or] at hn
  exact h ⟨by simpa using hn.1, by simpa using hn.2⟩

theorem unrouted_of_clean {s : Status} (h : s.isOK ∨ s.isNotFound) : Unrouted s := by
  constructor
  all_goals
    intro hcode
    simp [Status.isOK, Status.isNotFound, hcode] at h

section Conditions

variable {preconds : List Precondition}

/-- The meta of a condition on the key is the one that is kept for its puts. -/
def KeptFrom (preconds : List Precondition) (st : CondState) : Prop :=
  ∀ key m, st.udfUintKey2Meta key = some m → ∃ pos op, .userMetaCond key .NUM m pos op ∈ preconds

theorem ensures_compareUint {s : Status} (hs : s.isOK ∨ s.isNotFound) {st : CondState} (hst : KeptFrom preconds st)
    {key : KeyType} {expected provided : UserDefinedMeta} {pos : ℕ} {op : CompareOp}
    (hmem : .userMetaCond key .NUM provided pos op ∈ preconds)
    (hbounds : pos < provided.uintField.length → expected.uintField ≠ []) :
    (compareUint s st key expected provided pos op).Ensures (Numbered preconds) fun r =>
      Unrouted r.status ∧ KeptFrom preconds r.state := by
  unfold compareUint
  by_cases h1 : expected.uintField = [] ∧ pos ≥ provided.uintField.length
  · rw [if_pos h1]
    exact ⟨⟨nofun, nofun⟩, hst⟩
  rw [if_neg h1]
  by_cases h2 : expected.uintField ≠ [] ∧
      (pos ≥ expected.uintField.length ∨ pos ≥ provided.uintField.length)
  · rw [if_pos h2]
    exact ⟨⟨nofun, nofun⟩, hst⟩
  rw [if_neg h2]
  have hprovided : pos < provided.uintField.length := by
    by_contra hge
    by_cases he : expected.uintField = []
    · exact h1 ⟨he, Nat.le_of_not_lt hge⟩
    · exact h2 ⟨he, .inr (Nat.le_of_not_lt hge)⟩
  have hexpected : pos < expected.uintField.length := by
    by_contra hge
    exact h2 ⟨hbounds hprovided, .inl (Nat.le_of_not_lt hge)⟩
  rw [getElem?_eq_getElem hexpected, getElem?_eq_getElem hprovided]
  dsimp only
  split_ifs
  · exact ⟨unrouted_of_clean hs, hst⟩
  · refine ⟨unrouted_of_clean hs, fun k m hm => ?_⟩
    dsimp only at hm
    by_cases hk : k = key
    · subst hk
      rw [Function.update_self] at hm
      cases hm
      exact ⟨pos, op, hmem⟩
    · rw [Function.update_of_ne hk] at hm
      exact hst k m hm
  · exact ⟨⟨nofun, nofun⟩, hst⟩

theorem ensures_readKVFrom (fromProxy : Bool) (key : KeyType) (out : ReadOut) :
    (readKVFrom fromProxy key out).Ensures (Numbered preconds) fun r => r.1.isOK ∨ r.1.isNotFound := by
  cases fromProxy <;> exact fun r hr => clean_of_not_failed hr.1

theorem ensures_readMetaFrom (fromProxy : Bool) (key : KeyType) :
    (readMetaFrom fromProxy key).Ensures (Numbered preconds) fun r => (r.1.isOK ∨ r.1.isNotFound) ∧
      ∀ m, r.2.udfMeta = some m → Compares preconds key → m.uintField ≠ [] := by
  cases fromProxy <;> exact fun r hr => ⟨clean_of_not_failed hr.1, hr.2⟩

theorem ensures_checkUserMetaCond (fromProxy : Bool) {st : CondState} (hst : KeptFrom preconds st) {key : KeyType}
    {metaType : UdfMetaType} {m : UserDefinedMeta} {pos : ℕ} {op : CompareOp}
    (hmem : .userMetaCond key metaType m pos op ∈ preconds) :
    (checkUserMetaCond fromProxy st key metaType m pos op).Ensures (Numbered preconds) fun r =>
      Unrouted r.status ∧ KeptFrom preconds r.state := by
  have hok : Unrouted .ok := unrouted_of_clean (.inl rfl)
  have hst' : KeptFrom preconds { st with udfKeySet := key :: st.udfKeySet } := hst
  unfold checkUserMetaCond
  by_cases hseen : key ∈ st.udfKeySet
  · rw [if_pos hseen]
    exact ⟨⟨nofun, nofun⟩, hst⟩
  rw [if_neg hseen]
  refine (ensures_readKVFrom fromProxy key {}).bind fun ⟨s, out⟩ _ => ?_
  dsimp only
  by_cases hnf : s.isNotFound
  · rw [if_pos hnf]
    exact ⟨hok, hst⟩
  rw [if_neg hnf]
  refine (ensures_readMetaFrom fromProxy key).bind fun ⟨s, info⟩ ⟨hs, hnumbers⟩ => ?_
  dsimp only at hs hnumbers ⊢
  cases hinfo : info.udfMeta with
  | none => exact ⟨hok, hst⟩
  | some stored =>
    dsimp only
    by_cases hgone : s.isNotFound
    · rw [if_pos hgone]
      exact ⟨hok, hst⟩
    rw [if_neg hgone]
    by_cases hnum : metaType = .NUM
    · subst hnum
      rw [if_pos rfl]
      exact ensures_compareUint hs hst' hmem fun hpos => hnumbers stored hinfo ⟨m, pos, op, hmem, hpos⟩
    · rw [if_neg hnum]
      exact ⟨⟨nofun, nofun⟩, hst⟩

theorem ensures_checkCond (fromProxy : Bool) {st : CondState} (hst : KeptFrom preconds st) {cond : Precondition}
    (hmem : cond ∈ preconds) :
    (checkCond fromProxy st cond).Ensures (Numbered preconds) fun r =>
      Unrouted r.status ∧ KeptFrom preconds r.state := by
  cases cond with
  | versionCond key version op =>
    refine (ensures_readKVFrom fromProxy key {}).bind fun ⟨s, out⟩ hs => ?_
    dsimp only at hs ⊢
    split_ifs
    · exact ⟨⟨nofun, nofun⟩, hst⟩
    · exact ⟨⟨nofun, nofun⟩, hst⟩
    · exact ⟨unrouted_of_clean hs, hst⟩
    · exact ⟨⟨nofun, nofun⟩, hst⟩
  | existCond key shouldExist =>
    refine (ensures_readKVFrom fromProxy key {}).bind fun ⟨s, out⟩ hs => ?_
    dsimp only at hs ⊢
    split_ifs
    · exact ⟨unrouted_of_clean (.inl rfl), hst⟩
    · exact ⟨unrouted_of_clean (.inl rfl), hst⟩
    · exact ⟨⟨nofun, nofun⟩, hst⟩
    · exact ⟨⟨nofun, nofun⟩, hst⟩
  | userMetaCond key metaType m pos op => exact ensures_checkUserMetaCond fromProxy hst hmem
  | unset => exact ⟨⟨nofun, nofun⟩, hst⟩

theorem ensures_checkPrecond (fromProxy : Bool) {conds : List Precondition} (hconds : conds ⊆ preconds) {s : Status}
    (hs : Unrouted s) {st : CondState} (hst : KeptFrom preconds st) :
    (checkPrecond fromProxy conds s st).Ensures (Numbered preconds) fun r =>
      Unrouted r.1 ∧ KeptFrom preconds r.2 := by
  induction conds generalizing s st with
  | nil => exact ⟨hs, hst⟩
  | cons cond conds ih =>
    obtain ⟨hmem, hrest⟩ := cons_subset.mp hconds
    refine (ensures_checkCond fromProxy hst hmem).bind fun r ⟨hr, hstate⟩ => ?_
    split_ifs
    · exact ⟨hr, hstate⟩
    · exact ih hrest hr hstate

end Conditions

section Entries

/-- The event that an entry leaves: it can be answered, has no version yet, and carries what the entry has
brought. -/
def Leaves : Entry → Event → Prop
  | .write e, .write w => w.mVersion = kInvalidVersion ∧
      (w.mIsNoOp = true ∨ w.mKey = e.key ∧ w.mValue = e.value ∧ w.mUdfMeta = e.udfMeta)
  | .read _, .read _ => True
  | .remove _, .read r => r.mIsNotFound = true
  | .remove e, .delete d => d.mKey = e.key ∧ d.mVersion = kInvalidVersion
  | _, _ => False

theorem Leaves.pending {entry : Entry} {e : Event} (h : Leaves entry e) : Pending e := by
  cases entry <;> cases e <;> simp_all [Leaves, Pending, Event.version]

/-- The entry has left its event, or the command has failed. -/
def LeavesNext (entry : Entry) (st st' : LoopState) : Prop :=
  Unrouted st'.status ∧
    ((st'.stop = true ∧ st'.status.isOK = false ∧ st'.status.isNotFound = false) ∨
      st'.stop = false ∧ ∃ e, Leaves entry e ∧ st'.events = st.events ++ [e])

variable {cond : CondState} {st : LoopState}

theorem leavesNext_push (st : LoopState) {entry : Entry} {e : Event} {s : Status} (hstop : st.stop = false)
    (hs : Unrouted s) (h : Leaves entry e) : LeavesNext entry st (st.push s e) :=
  ⟨hs, .inr ⟨hstop, e, h, rfl⟩⟩

theorem leaves_removeEvent (e : RemoveEntry) (out : ReadOut) (value : ValueType) :
    Leaves (.remove e) (removeEvent e out value) := by
  unfold removeEvent
  split_ifs
  · rfl
  · exact ⟨rfl, rfl⟩

theorem leavesNext_of_executes {req : TransRequest} {curTime : ℕ} {st' : LoopState} {entry : Entry} {cs : List Call}
    (h : Executes req cond curTime st entry st' cs) (hcs : ∀ c ∈ cs, ¬ Erred c) (hstop : st.stop = false)
    (hs : Unrouted st.status) (hset : entry ≠ .unset) : LeavesNext entry st st' := by
  have hno : ¬ ∃ c ∈ cs, Erred c := fun ⟨c, hc, herred⟩ => hcs c hc herred
  cases h with
  | ignored h => exact leavesNext_push st hstop hs ⟨rfl, .inl rfl⟩
  | unsettled h hfix => exact absurd (erred_of_fixesTTL hfix).2 hno
  | mismatch h hfix hm hne => exact ⟨by simp [LoopState.fail, Unrouted, Status.error], .inl ⟨rfl, rfl, rfl⟩⟩
  | put h hfix hsame now =>
    exact leavesNext_push { st with tempStore := _ } hstop (unrouted_of_clean (.inl rfl)) ⟨rfl, .inr ⟨rfl, rfl, rfl⟩⟩
  | missing hread hs => exact leavesNext_push st hstop (unrouted_of_clean (.inr hs)) trivial
  | found hread hs hmeta =>
    refine leavesNext_push st hstop (unrouted_of_clean (.inl hs)) ?_
    cases hmeta <;> trivial
  | unread hread hs => exact absurd ((erred_iff_of_entryReads hread).mpr hs) hno
  | absent hread hs => exact leavesNext_push { st with tempStore := _ } hstop (unrouted_of_clean (.inr hs)) rfl
  | removed hread hs =>
    exact leavesNext_push { st with tempStore := _ } hstop (unrouted_of_clean (.inl hs)) (leaves_removeEvent ..)
  | lost hread hs => exact absurd ((erred_iff_of_overlayReads hread).mpr hs) hno
  | unset => exact absurd rfl hset

/-- Induction on the entries that are left. -/
theorem ensures_execEntries_leaves (req : TransRequest) (curTime : ℕ) (entries : List Entry) (st : LoopState)
    (hstop : st.stop = false) (hs : Unrouted st.status) (hset : .unset ∉ entries)
    (hinside : ∀ entry ∈ entries, StaysInside cond entry) :
    (execEntries req cond curTime entries st).Ensures (fun o r => ¬ Erred ⟨o, r⟩) fun st' => Unrouted st'.status ∧
      (Failed st'.status ∨ ∃ events, st'.events = st.events ++ events ∧ List.Forall₂ Leaves entries events) := by
  induction entries generalizing st with
  | nil => exact ⟨hs, .inr ⟨[], by simp, .nil⟩⟩
  | cons entry entries ih =>
    rw [mem_cons, not_or] at hset
    rw [forall_mem_cons] at hinside
    refine ((ends_execEntry st hinside.1).of_leads fun st₁ cs hleads hcs =>
      leavesNext_of_executes (executes_of_leads hleads) hcs hstop hs (Ne.symm hset.1)).bind fun st₁ hst₁ => ?_
    obtain ⟨hs₁, ⟨hstopped, hfailed⟩ | ⟨hgo, e, he, hevents⟩⟩ := hst₁
    · rw [if_pos hstopped]
      exact ⟨hs₁, .inl hfailed⟩
    · rw [if_neg (by simp [hgo])]
      refine (ih st₁ hgo hs₁ hset.2 hinside.2).mono ?_
      rintro st' ⟨hs', hfailed | ⟨events, hst', hleaves⟩⟩
      · exact ⟨hs', .inl hfailed⟩
      · exact ⟨hs', .inr ⟨e :: events, by simp [hst', hevents], .cons he hleaves⟩⟩

end Entries

/-- The result of a command: a failure, or one event for each of its entries. -/
def Answered (entries : List Entry) (r : ExecResult) : Prop :=
  Unrouted r.status ∧ (hasFailed r = true ∨ List.Forall₂ Leaves entries r.events)

theorem answered_one {entry : Entry} {e : Event} {s : Status} {keys : List KeyType} (hs : Unrouted s)
    (h : Leaves entry e) : Answered [entry] { status := s, events := [e], ignoredPutKeys := keys } :=
  ⟨hs, .inr (.cons h .nil)⟩

section Commands

variable {preconds : List Precondition}

theorem ensures_put (e : WriteEntry) : (KVPutCommand.execute e).Ensures (Numbered preconds) (Answered [.write e]) := by
  refine ((ends_fixTTL e.key e.enableTTL _).of_leads fun r cs hleads hcs => ?_ : (fixTTL e.key e.enableTTL
    (if e.enableTTL then e.ttl else INFINITE_TTL)).Ensures (Numbered preconds) fun r => ∃ w, r = .ok w).bind ?_
  · cases r with
    | ok w => exact ⟨w, rfl⟩
    | error s =>
      obtain ⟨-, c, hc, herred⟩ := erred_of_fixesTTL (fixesTTL_of_leads hleads)
      exact absurd herred (hcs c hc).1
  · rintro _ ⟨⟨enableTTL, ttl⟩, rfl⟩
    intro curTime _ updateTime _
    exact answered_one (unrouted_of_clean (.inl rfl)) ⟨rfl, .inr ⟨rfl, rfl, rfl⟩⟩

theorem ensures_get (req : GetRequest) :
    (KVGetCommand.execute req).Ensures (Numbered preconds) (Answered [.read req.entry]) := by
  refine (ensures_readKVFrom req.allowStale req.entry.key {}).bind fun ⟨s, out⟩ hclean => ?_
  dsimp only at hclean ⊢
  split_ifs with hnf hok
  · exact answered_one (unrouted_of_clean hclean) trivial
  · refine ((ends_newReadEvent _ _ req.entry.key out).of_leads fun v cs hleads _ => ?_ : (newReadEvent req.allowStale
      req.isMetaReturned req.entry.key out).Ensures (Numbered preconds) (Leaves (.read req.entry))).bind fun v hv => ?_
    · cases returnsMeta_of_leads hleads <;> trivial
    · exact answered_one (unrouted_of_clean hclean) hv
  · exact absurd hclean (by simp [hnf, hok])

theorem ensures_delete (req : DeleteRequest) :
    (KVDeleteCommand.execute req).Ensures (Numbered preconds) (Answered [.remove req.entry]) := by
  intro r hr
  have hclean := clean_of_not_failed hr.1
  have hs : Unrouted r.1 := unrouted_of_clean hclean
  change Program.Ensures (Numbered preconds) _ (if r.1.isNotFound then _ else _)
  by_cases hnf : r.1.isNotFound
  · rw [if_pos hnf]
    exact answered_one hs rfl
  · have hok : r.1.isOK := hclean.resolve_right hnf
    rw [if_neg hnf, if_pos hok]
    exact answered_one hs (leaves_removeEvent req.entry r.2 _)

theorem ensures_trans (req : TransRequest) (hset : .unset ∉ req.entries)
    (hshape : ∀ e, .write e ∈ req.entries → ∀ m pos op, .userMetaCond e.key .NUM m pos op ∈ req.preconds →
      (udfMetaIdentical e.udfMeta m).isSome) :
    (KVTransCommand.execute req).Ensures (Numbered req.preconds) (Answered req.entries) := by
  have hkept : KeptFrom req.preconds {} := fun key m hm => by cases hm
  refine (ensures_checkPrecond _ (List.Subset.refl _) (unrouted_of_clean (.inl rfl)) hkept).bind
    fun ⟨s, cond⟩ ⟨hs, hcond⟩ => ?_
  dsimp only at hs hcond ⊢
  by_cases hok : s.isOK
  · rw [if_neg (by simp [hok])]
    intro curTime _
    refine ((ensures_execEntries_leaves req curTime req.entries { status := s } rfl hs hset ?_).weaken
      fun o r hr => hr.1).bind fun st ⟨hst, hleaves⟩ => ⟨hst, ?_⟩
    · intro entry hentry
      cases entry with
      | write e =>
        intro _ m hm
        obtain ⟨pos, op, hmem⟩ := hcond e.key m hm
        exact hshape e hentry m pos op hmem
      | _ => trivial
    · rcases hleaves with ⟨hnok, hnf⟩ | ⟨events, hevents, hleaves⟩
      · exact .inl (by simp [hasFailed, hnok, hnf])
      · refine .inr ?_
        rw [hevents]
        simpa using hleaves
  · rw [if_pos (by simp [hok])]
    exact ⟨hs, .inl (by simp [hasFailed])⟩

end Commands

namespace KVEngine

def Request.entries : Request → List Entry
  | .put e => [.write e]
  | .get req => [.read req.entry]
  | .remove req => [.remove req.entry]
  | .trans req => req.entries

def Request.preconds : Request → List Precondition
  | .trans req => req.preconds
  | _ => []

section Respond

variable {entries : List Entry} {events : List Event}

/-- The event can be answered, with or without a version. -/
def Answers : Entry → Event → Prop
  | .write _, .write _ => True
  | .read _, .read _ => True
  | .remove _, .read r => r.mIsNotFound = true
  | .remove _, .delete _ => True
  | _, _ => False

theorem answers_of_leaves {entry : Entry} {e : Event} (h : Leaves entry e) (version : ℕ) :
    Answers entry e ∧ Answers entry (e.setVersion version) := by
  cases entry <;> cases e <;> simp_all [Leaves, Answers, Event.setVersion]

theorem addResult_of_answers (isMetaReturned : Bool) {entry : Entry} {e : Event} (h : Answers entry e)
    (r : ResponseState) : ∃ r', addResult isMetaReturned r entry e = some r' := by
  cases entry with
  | write w =>
    cases e with
    | write _ => exact ⟨_, rfl⟩
    | read _ | delete _ | importKV _ => cases h
  | read _ =>
    cases e with
    | read _ => exact ⟨_, rfl⟩
    | write _ | delete _ | importKV _ => cases h
  | remove _ =>
    cases e with
    | read r => exact ⟨_, if_pos h⟩
    | delete _ => exact ⟨_, rfl⟩
    | write _ | importKV _ => cases h
  | unset => cases h

theorem addResults_of_answers (isMetaReturned : Bool) (h : List.Forall₂ Answers entries events)
    (r : ResponseState) : ∃ r', addResults isMetaReturned entries events r = some r' := by
  induction h generalizing r with
  | nil => exact ⟨r, rfl⟩
  | cons hone _ ih =>
    obtain ⟨r₁, hr₁⟩ := addResult_of_answers isMetaReturned hone r
    obtain ⟨r₂, hr₂⟩ := ih r₁
    exact ⟨r₂, by simp [addResults, hr₁, hr₂]⟩

theorem initSuccessResponse_of_answers (req : Request) (curMaxVersion : ℕ) (ignoredPutKeys : List KeyType)
    (h : events = [] ∨ List.Forall₂ Answers req.entries events) :
    ∃ response, req.command.initSuccessResponse curMaxVersion ignoredPutKeys events = some response := by
  cases req with
  | put e =>
    rcases h with rfl | h
    · exact ⟨_, rfl⟩
    · obtain ⟨v, rfl⟩ := length_eq_one_iff.mp h.length_eq.symm
      cases v with
      | write w => exact ⟨_, rfl⟩
      | read _ | delete _ | importKV _ => cases forall₂_cons.mp h |>.1
  | get req =>
    rcases h with rfl | h
    · exact ⟨_, rfl⟩
    · obtain ⟨v, rfl⟩ := length_eq_one_iff.mp h.length_eq.symm
      cases v with
      | read r => exact ⟨_, rfl⟩
      | write _ | delete _ | importKV _ => cases forall₂_cons.mp h |>.1
  | remove req =>
    rcases h with rfl | h
    · exact ⟨_, rfl⟩
    · obtain ⟨v, rfl⟩ := length_eq_one_iff.mp h.length_eq.symm
      cases v with
      | read r => exact ⟨_, if_pos (forall₂_cons.mp h).1⟩
      | delete d => exact ⟨_, rfl⟩
      | write _ | importKV _ => cases forall₂_cons.mp h |>.1
  | trans req =>
    change ∃ response, KVTransCommand.initSuccessResponse req curMaxVersion ignoredPutKeys events = some response
    unfold KVTransCommand.initSuccessResponse
    by_cases hnil : events = []
    · simp [hnil]
    · have hentries : List.Forall₂ Answers req.entries events := h.resolve_left hnil
      obtain ⟨r, hr⟩ := addResults_of_answers req.isMetaReturned hentries { latestVersion := curMaxVersion }
      simp [hnil, hr]

end Respond

/-- An upper bound for the bytes that an entry adds to a log entry. -/
def entryCost : Entry → ℕ
  | .write e => 64 + (bytesOf e.key).length + (bytesOf e.value).length + udfSize e.udfMeta
  | .remove e => 64 + (bytesOf e.key).length
  | _ => 0

def eventCost : Event → ℕ
  | .write w => 64 + (bytesOf w.mKey).length + (bytesOf w.mValue).length + udfSize w.mUdfMeta
  | .delete d => 64 + (bytesOf d.mKey).length
  | _ => 0

section Sizes

theorem length_bytes_le {number : ℕ} {payload : Bytes} (hnumber : number < 16) (hpayload : payload.length ≤ 5000100) :
    (Field.bytes number payload).write.length ≤ 5 + payload.length :=
  Field.length_write_bytes_le (k := 4) hnumber (by omega) (by omega)

theorem length_block_le (number : ℕ) (payload : Bytes) (hnumber : number < 16) (hpayload : payload.length ≤ 5000100) :
    (field.writeAll (block number payload)).length ≤ 5 + payload.length := by
  unfold block
  split_ifs
  · exact Nat.zero_le _
  · rw [Codec.writeAll_singleton]
    exact length_bytes_le hnumber hpayload

theorem length_udfFields_le (w : WriteEvent) (h : udfSize w.mUdfMeta ≤ 5000000) :
    (field.writeAll (udfFields 9 w.toProtoEvent.udfMeta)).length ≤ 5 + udfSize w.mUdfMeta := by
  have hmeta : w.toProtoEvent.udfMeta.getD {} = w.mUdfMeta := by
    have hround := WriteEvent.ofProto_toProtoEvent w
    exact congrArg WriteEvent.mUdfMeta hround
  cases hudf : w.toProtoEvent.udfMeta with
  | none => exact Nat.zero_le _
  | some m =>
    rw [hudf, getD_some] at hmeta
    subst hmeta
    rw [udfFields, Codec.writeAll_singleton]
    exact length_bytes_le (by omega) (Nat.le_trans h (by omega))

theorem word_lt (n : ℕ) : n % 2 ^ 64 < 128 ^ 10 := Nat.lt_of_lt_of_le (Nat.mod_lt _ (by decide)) (by decide)

theorem length_writeEvent_le {w : WriteEvent} (h : eventCost (.write w) ≤ 5000000) :
    (field.writeAll (writeEventFields w.toProtoEvent)).length + 16 ≤ eventCost (.write w) := by
  simp only [eventCost] at h ⊢
  have hflag (b : Bool) : b.toNat < 128 ^ 1 := by cases b <;> decide
  have htime (n : ℕ) : n % 2 ^ 32 < 128 ^ 5 :=
    Nat.lt_of_lt_of_le (Nat.mod_lt _ (by decide)) (by decide)
  have h1 := length_block_le 1 (bytesOf w.mKey) (by omega) (by omega)
  have h2 := length_block_le 2 (bytesOf w.mValue) (by omega) (by omega)
  have h3 := length_optional_write_le 3 (by omega) (by omega) (word_lt w.mVersion)
  have h4 := length_optional_write_le 4 (by omega) (by omega) (hflag w.mEnableTTL)
  have h5 := length_optional_write_le 5 (by omega) (by omega) (htime w.mTTL)
  have h6 := length_optional_write_le 6 (by omega) (by omega) (htime w.mDeadline)
  have h7 := length_optional_write_le 7 (by omega) (by omega) (htime w.mUpdateTime)
  have h8 := length_optional_write_le 8 (by omega) (by omega) (hflag w.mIsNoOp)
  have h9 := length_udfFields_le w (by omega)
  simp only [writeEventFields, Codec.writeAll_append, length_append, WriteEvent.toProtoEvent] at h9 ⊢
  omega

theorem length_deleteEvent_le {d : DeleteEvent} (h : eventCost (.delete d) ≤ 5000000) :
    (field.writeAll (deleteEventFields d.toProtoEvent)).length + 16 ≤ eventCost (.delete d) := by
  simp only [eventCost] at h ⊢
  have hvalue : block 2 (bytesOf d.toProtoEvent.deletedValue) = [] := rfl
  have h1 := length_block_le 1 (bytesOf d.mKey) (by omega) (by omega)
  have h3 := length_optional_write_le 3 (by omega) (by omega) (word_lt d.mDeletedVersion)
  have h4 := length_optional_write_le 4 (by omega) (by omega) (word_lt d.mVersion)
  simp only [deleteEventFields, Codec.writeAll_append, length_append, hvalue, Codec.writeAll_nil,
    length_nil]
  simp only [DeleteEvent.toProtoEvent]
  omega

theorem length_event_le {e : Event} {p : Model.Proto.Event} (hp : e.toProtoEvent = some p)
    (hw : e.isWriteOrDelete = true) (h : eventCost e ≤ 5000000) :
    (Field.bytes 1 (field.writeAll (eventFields p))).write.length ≤ eventCost e := by
  have hwrap {number : ℕ} {payload : Bytes} (hnumber : number < 16)
      (hpayload : payload.length + 16 ≤ eventCost e) :
      (Field.bytes 1 (field.writeAll [.bytes number payload])).write.length ≤ eventCost e := by
    have hinner : (Field.bytes number payload).write.length ≤ 5 + payload.length :=
      length_bytes_le hnumber (by omega)
    have hsingle : field.writeAll [.bytes number payload] = (Field.bytes number payload).write :=
      Codec.writeAll_singleton ..
    rw [hsingle]
    have houter : (Field.bytes 1 (Field.bytes number payload).write).write.length ≤
        5 + (Field.bytes number payload).write.length := length_bytes_le (by omega) (by omega)
    omega
  cases e with
  | write w =>
    cases hp
    exact hwrap (by omega) (length_writeEvent_le h)
  | delete d =>
    cases hp
    exact hwrap (by omega) (length_deleteEvent_le h)
  | read _ | importKV _ => cases hw

theorem length_serializeBundle_le {events : List Event} {bundle : List Model.Proto.Event}
    (h : Event.toBundle events = some bundle) (hw : ∀ e ∈ events, e.isWriteOrDelete = true)
    (hcost : (events.map eventCost).sum ≤ 5000000) :
    (serializeBundle bundle).length ≤ (events.map eventCost).sum := by
  induction events generalizing bundle with
  | nil =>
    cases h
    exact Nat.zero_le _
  | cons e events ih =>
    obtain ⟨p, ps, hp, hps, rfl⟩ := mapM_cons_eq_some.mp h
    rw [map_cons, sum_cons] at hcost ⊢
    have hone := length_event_le hp (hw e mem_cons_self) (by omega)
    have hrest := ih hps (fun f hf => hw f (mem_cons_of_mem _ hf)) (by omega)
    have hsplit : serializeBundle (p :: ps) =
        (Field.bytes 1 (field.writeAll (eventFields p))).write ++ serializeBundle ps := rfl
    rw [hsplit, length_append]
    omega

end Sizes

section Persisted

variable {entries : List Entry} {events : List Event}

theorem isWriteOrDelete_of_leaves {entry : Entry} {e : Event} (h : Leaves entry e) (hn : isNonRead e = true) :
    e.isWriteOrDelete = true := by
  cases e with
  | write _ | delete _ => rfl
  | read _ | importKV _ => cases hn

theorem eventCost_of_leaves {entry : Entry} {e : Event} (h : Leaves entry e) (hn : isNonRead e = true) :
    eventCost e ≤ entryCost entry := by
  cases e with
  | read _ | importKV _ => cases hn
  | write w =>
    cases entry with
    | write x =>
      have hop : w.mIsNoOp ≠ true := by simpa [isNonRead] using hn
      obtain ⟨hkey, hvalue, hmeta⟩ := h.2.resolve_left hop
      rw [eventCost, entryCost, hkey, hvalue, hmeta]
    | read _ | remove _ | unset => cases h
  | delete d =>
    cases entry with
    | remove x => rw [eventCost, entryCost, h.1]
    | read _ | write _ | unset => cases h

theorem sum_eventCost_le (h : List.Forall₂ Leaves entries events) :
    ((events.filter isNonRead).map eventCost).sum ≤ (entries.map entryCost).sum := by
  induction h with
  | nil => exact le_rfl
  | @cons entry e entries events hone _ ih =>
    rw [map_cons, sum_cons, filter_cons]
    split_ifs with hn
    · rw [map_cons, sum_cons]
      exact Nat.add_le_add (eventCost_of_leaves hone hn) ih
    · exact Nat.le_trans ih (Nat.le_add_left _ _)

@[simp] theorem eventCost_setVersion (version : ℕ) (e : Event) :
    eventCost (e.setVersion version) = eventCost e := by
  cases e <;> rfl

theorem filter_setVersion (version : ℕ) (events : List Event) :
    (events.map (Event.setVersion version)).filter isNonRead =
      (events.filter isNonRead).map (Event.setVersion version) := by
  rw [List.filter_map]
  congr 1
  exact filter_congr fun e _ => isNonRead_setVersion e version

/-- A bundle whose events can be applied, and leave records that can be read. -/
def Replayable (bundle : List Model.Proto.Event) : Prop :=
  ∃ events, Event.fromBundle bundle = some events ∧
    ∀ e ∈ events, ∀ key r, e.effect = some (key, some r) → r.Small

theorem small_of_leaves {entry : Entry} {e : Event} (h : Leaves entry e)
    (hsmall : ∀ x, entry = .write x → udfSize x.udfMeta ≤ 94) (hcost : entryCost entry ≤ 5000000) (version : ℕ) :
    ∀ key r, (e.setVersion version).logged.effect = some (key, some r) → r.Small := by
  intro key r hr
  cases e with
  | read _ => cases hr
  | delete _ => cases hr
  | importKV _ => cases entry <;> cases h
  | write w =>
    cases entry with
    | write x =>
      simp only [Event.setVersion, Event.logged, Event.effect] at hr
      split_ifs at hr with hop
      cases hr
      obtain ⟨hkey, hvalue, hmeta⟩ := h.2.resolve_left hop
      have hudf := hsmall x rfl
      rw [entryCost] at hcost
      refine ⟨?_, ?_⟩
      · change udfSize w.mUdfMeta ≤ 94
        rw [hmeta]
        exact hudf
      · change (bytesOf w.mValue).length ≤ 5000000
        rw [hvalue]
        omega
    | read _ | remove _ | unset => cases h

/-- The events of a request that is neither too large nor carries too many user defined fields are written to
the log, and what is read back from it can be applied. -/
theorem persist_of_leaves {header : ℕ} (h : List.Forall₂ Leaves entries events)
    (hany : events.any isNonRead) (hcost : header + (entries.map entryCost).sum ≤ kMaxPayLoadSizeInBytes)
    (hsmall : ∀ x, .write x ∈ entries → udfSize x.udfMeta ≤ 94) (version : ℕ) :
    ∃ bundle, persist header ((events.map (Event.setVersion version)).filter isNonRead) = some bundle ∧
      Replayable bundle ∧ (Model.Proto.getVersionFromBundle bundle).isSome := by
  set logged := (events.map (Event.setVersion version)).filter isNonRead with hlogged
  have hmem : ∀ e ∈ logged, ∃ entry ∈ entries, ∃ f, Leaves entry f ∧ isNonRead f = true ∧ e = f.setVersion version := by
    intro e he
    rw [hlogged, filter_setVersion] at he
    obtain ⟨f, hf, rfl⟩ := mem_map.mp he
    obtain ⟨hfe, hfn⟩ := mem_filter.mp hf
    obtain ⟨entry, hentry, hleaves⟩ := forall₂_exists_left h hfe
    exact ⟨entry, hentry, f, hleaves, hfn, rfl⟩
  have hne : logged ≠ [] := by
    obtain ⟨e, he, hn⟩ := any_eq_true.mp hany
    rw [hlogged, filter_setVersion]
    exact ne_nil_of_mem (mem_map_of_mem (mem_filter.mpr ⟨he, hn⟩))
  have hwrites : ∀ e ∈ logged, e.isWriteOrDelete = true := by
    intro e he
    obtain ⟨entry, -, f, hleaves, hfn, rfl⟩ := hmem e he
    have hf := isWriteOrDelete_of_leaves hleaves hfn
    cases f <;> exact hf
  have hsum : (logged.map eventCost).sum ≤ (entries.map entryCost).sum := by
    rw [hlogged, filter_setVersion, List.map_map]
    simpa [Function.comp_def] using sum_eventCost_le h
  have hmax : kMaxPayLoadSizeInBytes = 5000000 := rfl
  obtain ⟨bundle, hto, hfrom⟩ := Event.exists_bundle hwrites
  have hlength := length_serializeBundle_le hto hwrites (by omega)
  have hbundle : bundle ≠ [] := by
    obtain ⟨e, es, hcons⟩ := exists_cons_of_ne_nil hne
    rw [hcons] at hto
    obtain ⟨p, ps, -, -, rfl⟩ := mapM_cons_eq_some.mp hto
    exact cons_ne_nil _ _
  refine ⟨bundle, ?_, ⟨logged.map Event.logged, hfrom, fun e he => ?_⟩, ?_⟩
  · rw [persist, if_neg hne, hto, bind_some, if_pos (by omega)]
  · obtain ⟨e', he', rfl⟩ := mem_map.mp he
    obtain ⟨entry, hentry, f, hleaves, -, rfl⟩ := hmem e' he'
    have hone : entryCost entry ≤ (entries.map entryCost).sum :=
      le_sum_of_mem (mem_map_of_mem hentry)
    exact small_of_leaves hleaves (fun x hx => hsmall x (hx ▸ hentry)) (by omega) version
  · rw [Event.getVersionFromBundle_toBundle hto hbundle]
    rfl

end Persisted

/-- What the requests before have left: RocksDB reports no error, and every record in it or on its way to it can
be read. -/
structure Inv (h : KVEngine) : Prop where
  noError : ∀ key, h.stores.db.mGetError key = none
  noBatch : h.stores.db.mWriteBatch = []
  small : ∀ key r, h.stores.db.mRocksDB key = some r → r.Small
  behind : ∀ bundle ∈ h.behind, Replayable bundle
  last : ∀ bundle, h.last = some bundle → (Model.Proto.getVersionFromBundle bundle).isSome

theorem Inv.healthy {h : KVEngine} (hinv : h.Inv) : h.stores.db.Healthy :=
  ⟨hinv.noError, fun key r hr => (hinv.small key r hr).readable⟩

/-- The number fields that are stored with the key, in the cache or in RocksDB. -/
def StoredNumbers (s : Stores) (key : KeyType) : Prop :=
  (∀ m, s.mem.mUdfMetaMap key = some m → m.uintField ≠ []) ∧
  ∀ r, s.db.mRocksDB key = some r → r.udfMeta.nonempty → r.udfMeta.uintField ≠ []

/-- A request that meets no assertion: all its entries are set; a put has at most 94 bytes of user defined
fields, none of them beyond those of a condition on its key that they agree with; the log entry is not too
large; and no number is compared with a stored meta without numbers. -/
structure Request.Harmless (header : ℕ) (s : Stores) (req : Request) : Prop where
  set : .unset ∉ req.entries
  small : ∀ e, .write e ∈ req.entries → udfSize e.udfMeta ≤ 94
  shaped : ∀ e, .write e ∈ req.entries → ∀ m pos op, .userMetaCond e.key .NUM m pos op ∈ req.preconds →
    (udfMetaIdentical e.udfMeta m).isSome
  fits : header + (req.entries.map entryCost).sum ≤ kMaxPayLoadSizeInBytes
  numbers : ∀ key, Compares req.preconds key → StoredNumbers s key

section Execute

variable {h : KVEngine} {preconds : List Precondition}

theorem readRaw_of_healthy {db : RocksDBKVStore} (hdb : db.Healthy) (now : ℕ) (key : KeyType) (out : ReadOut) :
    ∃ r, db.readRaw now key out = some r ∧ ¬ Failed r.1 := by
  unfold RocksDBKVStore.readRaw
  rw [hdb.noError key]
  cases hr : db.mRocksDB key with
  | none => exact ⟨_, rfl, not_failed_of_isNotFound rfl⟩
  | some r =>
    dsimp only
    rw [Record.parseValue, if_pos (hdb.readable key r hr)]
    split_ifs
    · exact ⟨_, rfl, not_failed_of_isNotFound rfl⟩
    · exact ⟨_, rfl, not_failed_of_isOK rfl⟩

theorem readMeta_of_healthy {db : RocksDBKVStore} (hdb : db.Healthy) {key : KeyType}
    (hnumbers : Compares preconds key →
      ∀ r, db.mRocksDB key = some r → r.udfMeta.nonempty → r.udfMeta.uintField ≠ []) :
    ¬ Failed (db.readMeta key).1 ∧
      ∀ m, (db.readMeta key).2.udfMeta = some m → Compares preconds key → m.uintField ≠ [] := by
  unfold RocksDBKVStore.readMeta
  rw [hdb.noError key]
  cases hr : db.mRocksDB key with
  | none => exact ⟨not_failed_of_isNotFound rfl, fun m hm => by cases hm⟩
  | some r =>
    dsimp only
    rw [Record.parseMeta, if_pos (hdb.readable key r hr)]
    refine ⟨not_failed_of_isOK rfl, fun m hm hcompares => ?_⟩
    simp only [Record.toMeta] at hm
    split_ifs at hm with hne
    cases hm
    exact hnumbers hcompares r hr hne

/-- What a command may change while it executes: a read erases an expired cell. -/
structure Reading (s : Stores) (t : RawStores) : Prop where
  alive : t.aborted = false
  db : t.stores.db = s.db
  metas : t.stores.mem.mUdfMetaMap = s.mem.mUdfMetaMap

theorem Reading.answer {s : Stores} (hdb : s.db.Healthy)
    (hnumbers : ∀ key, Compares preconds key → StoredNumbers s key) (t : RawStores) (o : StoreOp)
    (ht : Reading s t) : Numbered preconds o (t.answer o).1 ∧ Reading s (t.answer o).2 := by
  obtain ⟨⟨mem, db, now⟩, aborted⟩ := t
  obtain ⟨rfl, rfl, hmetas⟩ := ht
  dsimp only at hmetas
  cases o with
  | readKV key out =>
    by_cases hmiss : mem.Misses key
    · obtain ⟨r, hr, hclean⟩ := readRaw_of_healthy hdb now key out
      simp only [RawStores.answer, if_pos hmiss, hr]
      exact ⟨⟨hclean, trivial⟩, rfl, rfl, hmetas⟩
    · simp only [RawStores.answer, if_neg hmiss]
      refine ⟨⟨?_, trivial⟩, rfl, rfl, ?_⟩
      · change ¬ Failed (mem.readKV s.db now key out).1.1
        unfold InMemoryKVStore.readKV
        split
        · rename_i hd
          cases hdel : mem.mDeletedData key with
          | none => exact absurd ⟨hd, hdel⟩ hmiss
          | some v => exact not_failed_of_isNotFound rfl
        · split_ifs
          · exact not_failed_of_isNotFound rfl
          · exact not_failed_of_isOK rfl
      · rw [← hmetas]
        exact (Stores.swept_answer ⟨mem, s.db, now⟩ (.readKV key out)).udfMeta
  | readKVFromProxy key out =>
    obtain ⟨r, hr, hclean⟩ := readRaw_of_healthy hdb now key out
    simp only [RawStores.answer, hr]
    exact ⟨⟨hclean, trivial⟩, rfl, rfl, hmetas⟩
  | readMeta key =>
    cases hd : mem.mData key with
    | none =>
      have hread : mem.readMeta s.db key = s.db.readMeta key := by simp only [InMemoryKVStore.readMeta, hd]
      simp only [RawStores.answer, hread]
      exact ⟨readMeta_of_healthy hdb fun hc => (hnumbers key hc).2, rfl, rfl, hmetas⟩
    | some c =>
      simp only [RawStores.answer, InMemoryKVStore.readMeta, hd]
      refine ⟨⟨not_failed_of_isOK rfl, fun m hm hc => ?_⟩, rfl, rfl, hmetas⟩
      exact (hnumbers key hc).1 m (hmetas ▸ hm)
  | readMetaFromProxy key =>
    exact ⟨readMeta_of_healthy hdb fun hc => (hnumbers key hc).2, rfl, rfl, hmetas⟩
  | secondsSinceEpoch => exact ⟨⟨id, trivial⟩, rfl, rfl, hmetas⟩

theorem runRaw_of_harmless (hinv : h.Inv) {header : ℕ} {req : Request} (hreq : req.Harmless header h.stores) :
    ∃ r s, runRaw req.command.execute h.stores = some (r, s) ∧ Answered req.entries r ∧
      s.db = h.stores.db := by
  have hensures : req.command.execute.Ensures (Numbered req.preconds) (Answered req.entries) := by
    cases req with
    | put e => exact ensures_put e
    | get req => exact ensures_get req
    | remove req => exact ensures_delete req
    | trans req => exact ensures_trans req hreq.set hreq.shaped
  have hstart : Reading h.stores { stores := h.stores } := ⟨rfl, rfl, rfl⟩
  obtain ⟨r, t, hrun, hanswered, hreading⟩ :=
    hensures.run (Reading.answer hinv.healthy hreq.numbers) hstart
  refine ⟨r, t.stores, ?_, hanswered, hreading.db⟩
  rw [runRaw, hrun, bind_some]
  simp [hreading.alive]

end Execute

section Serve

variable {h : KVEngine} {header : ℕ} {req : Request} {r : ExecResult} {events : List Event}

theorem targetKeys_of_set (hset : .unset ∉ req.entries) : ∃ keys, req.command.getTargetKeys = some keys := by
  cases req with
  | put _ | get _ | remove _ => exact ⟨_, rfl⟩
  | trans req => exact getTargetKeys_of_set fun entry hentry heq => hset (heq ▸ hentry)

theorem evicts_command (req : Request) : req.command.evicts = none := by
  cases req <;> rfl

theorem reads_of_stale (hstale : req.command.isFollowerReadCmd) (hleaves : List.Forall₂ Leaves req.entries events) :
    ∀ e ∈ events, ∃ r, e = .read r := by
  intro e he
  obtain ⟨entry, hentry, hone⟩ := forall₂_exists_left hleaves he
  have hread : ∃ x, entry = .read x := by
    cases req with
    | put _ | remove _ => cases hstale
    | get req => exact ⟨req.entry, mem_singleton.mp hentry⟩
    | trans req =>
      have hall := all_eq_true.mp (Bool.and_eq_true_iff.mp hstale).2 entry hentry
      cases entry with
      | read x => exact ⟨x, rfl⟩
      | write _ | remove _ | unset => cases hall
  obtain ⟨x, rfl⟩ := hread
  cases e with
  | read r => exact ⟨r, rfl⟩
  | write _ | delete _ | importKV _ => cases hone

theorem maxFollowerReadVersion_of_reads (maxAllocatedVersion : ℕ) (h : ∀ e ∈ events, ∃ r, e = .read r) :
    ∃ version, maxFollowerReadVersion maxAllocatedVersion events = some version := by
  unfold maxFollowerReadVersion
  generalize kInvalidVersion = start
  induction events generalizing start with
  | nil => exact ⟨start, rfl⟩
  | cons e events ih =>
    obtain ⟨r, rfl⟩ := h e mem_cons_self
    exact ih (fun f hf => h f (mem_cons_of_mem _ hf)) _

/-- An answered command fails, waits in the reply loop, or has its events sent to the log. -/
theorem dispatched_of_answered (h : KVEngine) (hanswered : hasFailed r = true ∨
    List.Forall₂ Leaves req.entries r.events) :
    ∃ d, h.dispatched req.command r = some d ∧
      (d.outcome = none ∨ (∃ version response, d.outcome = some (.replyAsync version response)) ∨
        ∃ version response, d.outcome = some (.persistAsync version response
          ((r.events.map (Event.setVersion version)).filter isNonRead)) ∧
          r.events.any isNonRead = true ∧ List.Forall₂ Leaves req.entries r.events) := by
  by_cases hfail : hasFailed r = true
  · refine ⟨⟨none, r.events, h.versions⟩, ?_, .inl rfl⟩
    simp [dispatched, dispatchFollowerRead, dispatch, hfail]
  have hleaves := hanswered.resolve_left hfail
  have hanswers : List.Forall₂ Answers req.entries r.events := hleaves.imp fun _ _ hone =>
    (answers_of_leaves hone 0).1
  by_cases hstale : req.command.isFollowerReadCmd = true
  · obtain ⟨version, hversion⟩ :=
      maxFollowerReadVersion_of_reads h.versions.getMaxAllocatedVersion (reads_of_stale hstale hleaves)
    obtain ⟨response, hresponse⟩ := initSuccessResponse_of_answers req h.versions.getCurMaxVersion
      r.ignoredPutKeys (.inr hanswers)
    refine ⟨⟨some (.replyAsync version response), r.events, h.versions⟩, ?_, .inr (.inl ⟨version, response, rfl⟩)⟩
    simp [dispatched, hstale, dispatchFollowerRead, hfail, hversion, hresponse]
  have hpending : ∀ e ∈ r.events, Pending e := by
    intro e he
    obtain ⟨entry, -, hone⟩ := forall₂_exists_left hleaves he
    exact hone.pending
  cases hany : r.events.any isNonRead with
  | true =>
    have hversioned : List.Forall₂ Answers req.entries
        (r.events.map (Event.setVersion h.versions.mNextVersion)) :=
      forall₂_map_right_iff.mpr (hleaves.imp fun _ _ hone => (answers_of_leaves hone _).2)
    obtain ⟨response, hresponse⟩ := initSuccessResponse_of_answers req h.versions.getCurMaxVersion
      r.ignoredPutKeys (.inr hversioned)
    have hassign := Event.mapM_assignVersion h.versions.mNextVersion fun e he => (hpending e he).1
    refine ⟨⟨some (.persistAsync h.versions.mNextVersion response _),
      r.events.map (Event.setVersion h.versions.mNextVersion),
      { h.versions with mNextVersion := VersionStore.successor h.versions.mNextVersion }⟩, ?_,
      .inr (.inr ⟨h.versions.mNextVersion, response, rfl, rfl, hleaves⟩)⟩
    simp [dispatched, hstale, dispatch, hfail, expectedVersion_of_pending hpending, hany,
      VersionStore.allocateNextVersion, hassign, hresponse]
  | false =>
    obtain ⟨response, hresponse⟩ := initSuccessResponse_of_answers req h.versions.getCurMaxVersion
      r.ignoredPutKeys (.inr hanswers)
    refine ⟨⟨some (.replyAsync (maxReadVersion h.versions.getCurMaxVersion r.events) response), r.events,
      h.versions⟩, ?_, .inr (.inl ⟨_, response, rfl⟩)⟩
    simp [dispatched, hstale, dispatch, hfail, expectedVersion_of_pending hpending, hany, hresponse]

/-- A status that sends the client elsewhere says where. -/
def NamesRoute (s : Status) : Prop := s.code = .wrongRoute ∨ s.code = .migratedRoute → tokenize s.detail ',' ≠ []

theorem routeHintCode_command (req : Request) :
    req.command.routeHintCode = some .WRONG_ROUTE ∨ req.command.routeHintCode = some .MIGRATED_ROUTE := by
  cases req with
  | remove e => exact .inr rfl
  | _ => exact .inl rfl

theorem fillResponseAndReply_of_namesRoute (req : Request) {s : Status} (hs : NamesRoute s) (response : Response) :
    ∃ filled, fillResponseAndReply req.command response (toResponseCode s) s.detail = some filled := by
  refine ⟨_, if_neg ?_⟩
  rintro ⟨hcode, htokens⟩
  refine hs ?_ htokens
  obtain ⟨code, detail⟩ := s
  rcases routeHintCode_command req with hhint | hhint <;> rw [hhint] at hcode <;>
    cases code <;> simp [toResponseCode] at hcode ⊢

theorem conclude_of_answered (hinv : h.Inv) (hreq : req.Harmless header h.stores) (hroute : NamesRoute r.status)
    (hanswered : hasFailed r = true ∨ List.Forall₂ Leaves req.entries r.events) {stores : Stores}
    (hdb : stores.db = h.stores.db) :
    ∃ d h', h.dispatched req.command r = some d ∧
      conclude header { h with stores := req.command.finish stores d.events, versions := d.versions } req.command r
        d.outcome = some h' ∧ h'.Inv := by
  obtain ⟨d, hd, hout⟩ := dispatched_of_answered h hanswered
  have hfinish : (req.command.finish stores d.events).db = h.stores.db := by
    rw [Command.finish, evicts_command]
    exact hdb
  have hkept (behind : List (List Model.Proto.Event)) (last : Option (List Model.Proto.Event))
      (hbehind : ∀ bundle ∈ behind, Replayable bundle)
      (hlast : ∀ bundle, last = some bundle → (Model.Proto.getVersionFromBundle bundle).isSome) :
      Inv ⟨req.command.finish stores d.events, d.versions, behind, last⟩ := by
    refine ⟨?_, ?_, ?_, hbehind, hlast⟩ <;> dsimp only <;> rw [hfinish]
    · exact hinv.noError
    · exact hinv.noBatch
    · exact hinv.small
  refine ⟨d, ?_⟩
  rcases hout with hnone | ⟨version, response, hreply⟩ | ⟨version, response, hpersist, hany, hleaves⟩
  · obtain ⟨response, hresponse⟩ :=
      initSuccessResponse_of_answers req d.versions.getCurMaxVersion r.ignoredPutKeys (.inl rfl)
    obtain ⟨filled, hfilled⟩ := fillResponseAndReply_of_namesRoute req hroute response
    refine ⟨_, hd, ?_, hkept _ _ hinv.behind hinv.last⟩
    simp [hnone, conclude, hresponse, hfilled]
  · refine ⟨_, hd, ?_, hkept _ _ hinv.behind hinv.last⟩
    rw [hreply]
    rfl
  · obtain ⟨bundle, hbundle, hreplay, hversion⟩ := persist_of_leaves hleaves hany hreq.fits hreq.small version
    refine ⟨_, hd, ?_, hkept (h.behind ++ [bundle]) (some bundle) ?_ ?_⟩
    · simp [hpersist, conclude, hbundle]
    · intro b hb
      rcases mem_append.mp hb with hb | hb
      · exact hinv.behind b hb
      · rw [mem_singleton.mp hb]
        exact hreplay
    · rintro b hb
      cases hb
      exact hversion

theorem serve_of_harmless (hinv : h.Inv) (hreq : req.Harmless header h.stores) {preExecute : Status}
    (hroute : NamesRoute preExecute) :
    ∃ h', serve header h req.command preExecute = some h' ∧ h'.Inv := by
  obtain ⟨keys, hkeys⟩ := targetKeys_of_set hreq.set
  have hexecute : ∃ r stores, h.execute req.command preExecute = some (r, stores) ∧ NamesRoute r.status ∧
      (hasFailed r = true ∨ List.Forall₂ Leaves req.entries r.events) ∧ stores.db = h.stores.db := by
    unfold execute
    split_ifs
    · obtain ⟨r, stores, hrun, ⟨hunrouted, hanswered⟩, hdb⟩ := runRaw_of_harmless hinv hreq
      exact ⟨r, stores, hrun, fun hcode => absurd hcode (not_or.mpr hunrouted), hanswered, hdb⟩
    · exact ⟨_, _, rfl, hroute, .inl (by simp [hasFailed]), rfl⟩
  obtain ⟨r, stores, hrun, hnames, hanswered, hdb⟩ := hexecute
  obtain ⟨d, h', hd, hconclude, hinv'⟩ := conclude_of_answered hinv hreq hnames hanswered hdb
  exact ⟨h', by simp [serve, hkeys, hrun, hd, hconclude], hinv'⟩

end Serve

section Steps

variable {h : KVEngine} {header : ℕ}

/-- The request that an entry of a batch becomes. -/
def single : Entry → Option Request
  | .write e => some (.put e)
  | .read e => some (.get { entry := e })
  | .remove e => some (.remove { entry := e })
  | .unset => none

theorem Request.Harmless.of_single {entry : Entry} {req : Request} {s : Stores} (hsingle : single entry = some req)
    (hreq : req.Harmless header s) (t : Stores) : req.Harmless header t := by
  obtain ⟨hset, hsmall, hshaped, hfits, -⟩ := hreq
  refine ⟨hset, hsmall, hshaped, hfits, fun key hcompares => ?_⟩
  obtain ⟨m, pos, op, hmem, -⟩ := hcompares
  cases entry <;> cases hsingle <;> cases hmem

/-- Induction on the entries that are left. -/
theorem exeBatch_of_harmless (hinv : h.Inv) (entries : List (Entry × Status))
    (hentries : ∀ x ∈ entries, NamesRoute x.2 ∧ ∀ req, single x.1 = some req → req.Harmless header h.stores) :
    ∃ h', exeBatch header h entries = some h' ∧ h'.Inv := by
  induction entries generalizing h with
  | nil => exact ⟨h, rfl, hinv⟩
  | cons x entries ih =>
    obtain ⟨entry, preExecute⟩ := x
    obtain ⟨hroute, hreq⟩ := hentries _ mem_cons_self
    have hnext (req : Request) (hsingle : single entry = some req) :
        ∃ h', (serve header h req.command preExecute).bind (fun h => exeBatch header h entries) = some h' ∧
          h'.Inv := by
      obtain ⟨h₁, hserve, hinv₁⟩ := serve_of_harmless hinv (hreq req hsingle) hroute
      obtain ⟨h', hrest, hinv'⟩ := ih hinv₁ fun y hy =>
        ⟨(hentries y (mem_cons_of_mem _ hy)).1, fun req' hreq' =>
          ((hentries y (mem_cons_of_mem _ hy)).2 req' hreq').of_single hreq' _⟩
      exact ⟨h', by rw [hserve]; exact hrest, hinv'⟩
    cases entry with
    | write e => exact hnext _ rfl
    | read e => exact hnext _ rfl
    | remove e => exact hnext _ rfl
    | unset => exact ⟨h, rfl, hinv⟩

theorem apply_of_inv (hinv : h.Inv) (n : ℕ) : ∃ h', h.apply n = some h' ∧ h'.Inv := by
  have hbundles : ∀ bundles : List (List Model.Proto.Event), (∀ b ∈ bundles, Replayable b) →
      ∃ events, bundles.mapM Event.fromBundle = some events ∧
        ∀ e ∈ events.flatten, ∀ key r, e.effect = some (key, some r) → r.Small := by
    intro bundles hall
    induction bundles with
    | nil => exact ⟨[], rfl, by simp⟩
    | cons b bundles ih =>
      obtain ⟨events, hb, hsmall⟩ := hall b mem_cons_self
      obtain ⟨rest, hrest, hsmalls⟩ := ih fun c hc => hall c (mem_cons_of_mem _ hc)
      refine ⟨events :: rest, by simp [mapM_cons, hb, hrest], fun e he => ?_⟩
      rw [flatten_cons] at he
      rcases mem_append.mp he with he | he
      · exact hsmall e he
      · exact hsmalls e he
  obtain ⟨events, hevents, hsmall⟩ :=
    hbundles (h.behind.take n) fun b hb => hinv.behind b (mem_of_mem_take hb)
  refine ⟨{ h with
    stores := { h.stores with db := (Event.applyAll h.stores.db events.flatten).flushToRocksDB }
    behind := h.behind.drop n }, by simp [apply, hevents], ?_, ?_, fun key r hr => ?_, fun b hb => ?_, hinv.last⟩
  · simpa [RocksDBKVStore.flushToRocksDB, Event.applyAll_rocksDB] using hinv.noError
  · rfl
  · have hreplay : (Event.applyAll h.stores.db events.flatten).flushToRocksDB.mRocksDB =
        replay h.stores.db.mRocksDB events.flatten := by
      rw [Event.applyAll_rocksDB, hinv.noBatch]
      exact applyBatch_effects _ _
    rw [hreplay] at hr
    rcases exists_of_replayOn_eq_some _ hr with hold | ⟨e, he, heffect⟩
    · exact hinv.small key r hold
    · exact hsmall e he key r heffect
  · exact hinv.behind b (mem_of_mem_drop hb)

theorem evict_of_inv (hinv : h.Inv) (keys : List KeyType) (guardVersion : ℕ) :
    ∃ h', h.evict keys guardVersion = some h' ∧ h'.Inv := by
  refine ⟨_, if_pos fun key _ _ => ?_, ⟨hinv.noError, hinv.noBatch, hinv.small, hinv.behind, hinv.last⟩⟩
  obtain ⟨r, hr, -⟩ := readRaw_of_healthy hinv.healthy h.stores.now key {}
  rw [hr]
  rfl

theorem lead_of_inv (hinv : h.Inv) : ∃ h', h.lead = some h' ∧ h'.Inv := by
  have hkept (versions : VersionStore) (mem : InMemoryKVStore) :
      Inv { h with stores := { h.stores with mem := mem }, versions := versions } :=
    ⟨hinv.noError, hinv.noBatch, hinv.small, hinv.behind, hinv.last⟩
  cases hlast : h.last with
  | none => exact ⟨_, by simp only [lead, hlast]; rfl, hlast ▸ hkept _ _⟩
  | some bundle =>
    obtain ⟨version, hversion⟩ := isSome_iff_exists.mp (hinv.last bundle hlast)
    exact ⟨_, by simp only [lead, hlast, hversion]; rfl, hlast ▸ hkept _ _⟩

/-- What a client may ask of the server. -/
def Careful (header : ℕ) (h : KVEngine) : Act → Prop
  | .request req preExecute => NamesRoute preExecute ∧ req.Harmless header h.stores
  | .exeBatch entries => ∀ x ∈ entries, NamesRoute x.2 ∧
      ∀ req, single x.1 = some req → req.Harmless header h.stores
  | _ => True

theorem Inv.step (hinv : h.Inv) {a : Act} (ha : Careful header h a) : ∃ h', h.step header a = some h' ∧ h'.Inv := by
  cases a with
  | request req preExecute => exact serve_of_harmless hinv ha.2 ha.1
  | exeBatch entries => exact exeBatch_of_harmless hinv entries ha
  | apply n => exact apply_of_inv hinv n
  | evict keys guardVersion => exact evict_of_inv hinv keys guardVersion
  | lead => exact lead_of_inv hinv
  | restart | tick now => exact ⟨_, rfl, hinv.noError, hinv.noBatch, hinv.small, hinv.behind, hinv.last⟩

theorem start_inv : Inv {} := by
  refine ⟨fun _ => rfl, rfl, fun key r hr => ?_, fun b hb => ?_, fun b hb => ?_⟩ <;> cases ‹_›

end Steps

/-- After careful requests, in any order and with the apply loop, evictions, takeovers and restarts between them,
no careful request meets an assertion that fails. -/
theorem careful_request_returns {header : ℕ} {acts : List Act} {h : KVEngine} {a : Act}
    (hrun : exec (step header) {} acts = some h) (hcareful : Meets (step header) (Careful header) {} acts)
    (ha : Careful header h a) : ∃ h', step header h a = some h' := by
  have hinv : h.Inv := by
    refine exec_invariant (fun s b t hs hb ht => ?_) start_inv hcareful hrun
    obtain ⟨t', ht', hinv⟩ := hs.step hb
    rw [ht] at ht'
    cases ht'
    exact hinv
  obtain ⟨h', hstep, -⟩ := hinv.step ha
  exact ⟨h', hstep⟩

def firstPut : Request := .put { key := "k", value := "v", udfMeta := ⟨[1], []⟩ }

def raise (udfMeta condition : UserDefinedMeta) : Request :=
  .trans { preconds := [.userMetaCond "k" .NUM condition 0 .GREATER],
           entries := [.write { key := "k", value := "w", udfMeta := udfMeta }] }

theorem harmless_firstPut (s : Stores) : firstPut.Harmless 0 s where
  set := by simp [firstPut, Request.entries]
  small := by
    intro e he
    obtain rfl : e = _ := Entry.write.inj (mem_singleton.mp he)
    decide +kernel
  shaped := by
    intro e _ m pos op hm
    cases hm
  fits := by decide +kernel
  numbers := by
    rintro key ⟨m, pos, op, hm, -⟩
    cases hm

/-- A counter is set, flushed and raised under the condition that it grows. -/
theorem counter_raised :
    ∃ h h', exec (step 0) {} [.lead, .request firstPut .ok, .apply 1, .lead] = some h ∧
      step 0 h (.request (raise ⟨[2], []⟩ ⟨[2], []⟩) .ok) = some h' := by
  obtain ⟨h, hrun, hstored⟩ : ∃ h, exec (step 0) {} [.lead, .request firstPut .ok, .apply 1, .lead] = some h ∧
      (h.stores.mem.mUdfMetaMap "k" = none ∧ h.stores.db.mRocksDB "k" = some ⟨"v", 1, 0, 0, 0, ⟨[1], []⟩⟩) :=
    exists_exec_of_any (by decide +kernel)
  have hroute : NamesRoute .ok := by simp [NamesRoute, Status.ok]
  have hcareful : Meets (step 0) (Careful 0) {} [.lead, .request firstPut .ok, .apply 1, .lead] := by
    intro s _
    exact ⟨trivial, fun t _ => ⟨⟨hroute, harmless_firstPut _⟩, fun u _ => ⟨trivial, fun v _ => ⟨trivial, trivial⟩⟩⟩⟩
  have hharmless : (raise ⟨[2], []⟩ ⟨[2], []⟩).Harmless 0 h.stores := by
    refine ⟨by simp [raise, Request.entries], fun e he => ?_, fun e he m pos op hm => ?_, by decide +kernel, ?_⟩
    · obtain rfl : e = _ := Entry.write.inj (mem_singleton.mp he)
      decide +kernel
    · obtain rfl : e = _ := Entry.write.inj (mem_singleton.mp he)
      cases mem_singleton.mp hm
      decide +kernel
    · rintro key ⟨m, pos, op, hm, -⟩
      cases mem_singleton.mp hm
      refine ⟨fun m hm => ?_, fun r hr _ => ?_⟩
      · rw [hstored.1] at hm
        cases hm
      · rw [hstored.2] at hr
        cases hr
        decide
  obtain ⟨h', hstep⟩ := careful_request_returns (a := .request (raise ⟨[2], []⟩ ⟨[2], []⟩) .ok) hrun hcareful
    ⟨hroute, hharmless⟩
  exact ⟨h, h', hrun, hstep⟩

/-- A transaction with an entry that is not set; a put with 130 user defined numbers, which cannot be read back
from RocksDB; a number compared with a stored meta that has none; and a put with more numbers than the
condition on its key. -/
theorem requests_abort :
    (∃ h, exec (step 0) {} [.lead] = some h ∧ (step 0 h (.request (.trans { entries := [.unset] }) .ok)).isNone) ∧
    (∃ h, exec (step 0) {} [.lead,
        .request (.put { key := "k", value := "v", udfMeta := ⟨List.replicate 130 0, []⟩ }) .ok,
        .apply 1, .lead] = some h ∧ (step 0 h (.request (.get { entry := ⟨"k"⟩ }) .ok)).isNone) ∧
    (∃ h, exec (step 0) {} [.lead, .request (.put { key := "k", value := "v", udfMeta := ⟨[], ["a"]⟩ }) .ok] = some h ∧
      (step 0 h (.request (raise ⟨[2], []⟩ ⟨[2], []⟩) .ok)).isNone) ∧
    ∃ h, exec (step 0) {} [.lead, .request firstPut .ok] = some h ∧
      (step 0 h (.request (raise ⟨[2, 3], []⟩ ⟨[2], []⟩) .ok)).isNone := by
  refine ⟨?_, ?_, ?_, ?_⟩
  · exact exists_exec_of_any (by decide +kernel)
  · exact exists_exec_of_any (by decide +kernel)
  · exact exists_exec_of_any (by decide +kernel)
  · exact exists_exec_of_any (by decide +kernel)

end KVEngine

end Goblin.Execution
