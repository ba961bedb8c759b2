import Goblin.Command.Trans

/-! Transactions of the Java client: which of them are sent as stale ones. -/
namespace Goblin.Client.Builder

open Model Store List

/-- The entries that `MiniTransaction` adds. The value of a put is missing where its offset and size do not lie
within the content. -/
inductive AbstractEntry
  | PutRequest (key : KeyType) (value : Option ValueType) (udfMeta : UserDefinedMeta)
  | GetRequest (key : KeyType)
  | DeleteRequest (key : KeyType)
  deriving DecidableEq, Repr

namespace AbstractEntry

/-- `entry instanceof ReadEntry`: `DeleteRequest` extends `ReadEntry` as well. -/
def isReadEntry : AbstractEntry → Bool
  | .PutRequest _ _ _ => false
  | .GetRequest _ => true
  | .DeleteRequest _ => true

def isDeleteRequest : AbstractEntry → Bool
  | .DeleteRequest _ => true
  | _ => false

def toReadWriteEntry : AbstractEntry → Option Entry
  | .PutRequest key value udfMeta => value.map fun value => .write { key, value, udfMeta }
  | .GetRequest key => some (.read { key })
  | .DeleteRequest key => some (.remove { key })

/-- What a read or a delete is converted to. -/
def readOrRemove : AbstractEntry → Entry
  | .DeleteRequest key => .remove { key }
  | .GetRequest key | .PutRequest key _ _ => .read { key }

end AbstractEntry

structure MiniTransaction where
  preconds : List Precondition := []
  requests : List AbstractEntry := []
  allowStale : Bool := false
  deriving DecidableEq, Repr

/-- What is sent: `leader` says that the leader is picked, not any instance. -/
structure SentTransaction where
  leader : Bool
  request : TransRequest
  deriving DecidableEq, Repr

namespace MiniTransaction

inductive Call
  | withCond (cond : Precondition)
  | put (key : KeyType) (value : Option ValueType) (udfMeta : UserDefinedMeta)
  | get (key : KeyType)
  | delete (key : KeyType)
  | allowStale
  deriving DecidableEq, Repr

def call (t : MiniTransaction) : Call → MiniTransaction
  | .withCond cond => { t with preconds := t.preconds ++ [cond] }
  | .put key value udfMeta => { t with requests := t.requests ++ [.PutRequest key value udfMeta] }
  | .get key => { t with requests := t.requests ++ [.GetRequest key] }
  | .delete key => { t with requests := t.requests ++ [.DeleteRequest key] }
  | .allowStale => if t.requests.all AbstractEntry.isReadEntry then { t with allowStale := true } else t

def build (calls : List Call) : MiniTransaction :=
  calls.foldl call {}

def toKvTransRequest (t : MiniTransaction) : Option TransRequest := do
  let entries ← t.requests.mapM AbstractEntry.toReadWriteEntry
  if t.allowStale ∧ t.requests.all AbstractEntry.isReadEntry = false then none
  else return { preconds := t.preconds, entries, isMetaReturned := true, allowStale := t.allowStale }

/-- `exeTrans` with the pick of the instance; nothing is sent if the conversion throws. -/
def exeTrans (t : MiniTransaction) : Option SentTransaction :=
  t.toKvTransRequest.map fun request => { leader := !t.allowStale, request }

/-- A stale request has only reads, so that a follower takes it, and what has a put or a delete goes to the
leader. -/
def Agrees (t : MiniTransaction) : Prop :=
  ∀ sent, t.exeTrans = some sent →
    (sent.request.allowStale = true → (∀ e ∈ sent.request.entries, ∃ x, e = .read x) ∧
      KVTransCommand.isFollowerReadCmd sent.request = true) ∧
    ((∃ e ∈ sent.request.entries, (∃ x, e = .write x) ∨ ∃ x, e = .remove x) → sent.leader = true)

def Call.isPut : Call → Bool
  | .put _ _ _ => true
  | _ => false

def Call.isDelete : Call → Bool
  | .delete _ => true
  | _ => false

variable {calls : List Call} {t : MiniTransaction}

/-- Induction on the calls from the last one. -/
theorem requests_build (calls : List Call) :
    (build calls).requests.all AbstractEntry.isReadEntry = calls.all (!·.isPut) ∧
      (build calls).requests.any AbstractEntry.isDeleteRequest = calls.any Call.isDelete := by
  induction calls using List.reverseRecOn with
  | nil => exact ⟨rfl, rfl⟩
  | append_singleton calls c ih =>
    have hbuild : build (calls ++ [c]) = (build calls).call c := by simp [build]
    rw [hbuild, all_append, any_append, ← ih.1, ← ih.2]
    cases c with
    | allowStale =>
      simp only [call]
      split_ifs <;> simp [Call.isPut, Call.isDelete]
    | _ => simp [call, Call.isPut, Call.isDelete, AbstractEntry.isReadEntry, AbstractEntry.isDeleteRequest]

theorem allowStale_build (h : calls.all (!·.isPut) = true) : (build calls).allowStale =
    decide (.allowStale ∈ calls) := by
  induction calls using List.reverseRecOn with
  | nil => rfl
  | append_singleton calls c ih =>
    rw [all_append, Bool.and_eq_true] at h
    have hbuild : build (calls ++ [c]) = (build calls).call c := by simp [build]
    have hreads : (build calls).requests.all AbstractEntry.isReadEntry = true := (requests_build calls).1.trans h.1
    rw [hbuild]
    cases c with
    | allowStale => simp [call, hreads]
    | _ => simpa [call] using ih h.1

theorem mapM_toReadWriteEntry {requests : List AbstractEntry} (h : requests.all AbstractEntry.isReadEntry = true) :
    requests.mapM AbstractEntry.toReadWriteEntry = some (requests.map AbstractEntry.readOrRemove) := by
  induction requests with
  | nil => rfl
  | cons e requests ih =>
    rw [all_cons, Bool.and_eq_true] at h
    rw [mapM_cons, ih h.2]
    cases e with
    | PutRequest key value udfMeta => cases h.1
    | GetRequest key => rfl
    | DeleteRequest key => rfl

theorem agrees_of_not_allowStale (h : t.allowStale = false) : t.Agrees := by
  intro sent hsent
  obtain ⟨request, hrequest, rfl⟩ := Option.map_eq_some_iff.mp hsent
  obtain ⟨entries, -, hrequest⟩ := Option.bind_eq_some_iff.mp hrequest
  simp only [h, Bool.false_eq_true, false_and, if_false] at hrequest
  cases hrequest
  exact ⟨nofun, fun _ => by simp [h]⟩

theorem not_sent (hstale : t.allowStale = true) (h : t.requests.all AbstractEntry.isReadEntry = false) :
    t.exeTrans = none := by
  simp only [exeTrans, toKvTransRequest, hstale, h]
  cases t.requests.mapM AbstractEntry.toReadWriteEntry <;> rfl

/-- A stale transaction of reads and deletes is sent as it is. -/
theorem agrees_iff_of_reads (hstale : t.allowStale = true) (h : t.requests.all AbstractEntry.isReadEntry = true) :
    t.Agrees ↔ t.requests.any AbstractEntry.isDeleteRequest = false := by
  have hsent : t.exeTrans = some
      ⟨false, t.preconds, t.requests.map AbstractEntry.readOrRemove, true, true⟩ := by
    simp only [exeTrans, toKvTransRequest, mapM_toReadWriteEntry h, hstale, h]
    rfl
  constructor
  · intro hagrees
    by_contra hdelete
    obtain ⟨e, he, hkey⟩ := any_eq_true.mp (Bool.not_eq_false _ ▸ hdelete)
    obtain ⟨x, hx⟩ := ((hagrees _ hsent).1 rfl).1 _ (mem_map_of_mem he)
    cases e with
    | DeleteRequest key => cases hx
    | PutRequest _ _ _ | GetRequest _ => cases hkey
  · intro hnone sent hsent'
    cases hsent.symm.trans hsent'
    have hreads : ∀ e ∈ t.requests, ∃ key, e = .GetRequest key := by
      intro e he
      cases e with
      | PutRequest key value udfMeta => cases all_eq_true.mp h _ he
      | GetRequest key => exact ⟨key, rfl⟩
      | DeleteRequest key => exact absurd rfl (any_eq_false.mp hnone _ he)
    have hall : ∀ e ∈ t.requests.map AbstractEntry.readOrRemove, ∃ x, e = Entry.read x := by
      intro e he
      obtain ⟨f, hf, rfl⟩ := mem_map.mp he
      obtain ⟨key, rfl⟩ := hreads f hf
      exact ⟨_, rfl⟩
    refine ⟨fun _ => ⟨hall, ?_⟩, ?_⟩
    · refine all_eq_true.mpr fun e he => ?_
      obtain ⟨x, rfl⟩ := hall e he
      rfl
    · rintro ⟨e, he, ⟨x, rfl⟩ | ⟨x, rfl⟩⟩ <;> cases (hall _ he).choose_spec

/-- Whatever is called in whatever order: the client and the servers agree on what a stale transaction is unless
one with deletes, but without puts, is made stale. -/
theorem stale_transaction_reads_iff (calls : List Call) :
    (build calls).Agrees ↔
      ¬ (.allowStale ∈ calls ∧ calls.any Call.isDelete = true ∧ calls.any Call.isPut = false) := by
  obtain ⟨hreads, hdeletes⟩ := requests_build calls
  have hputs : calls.all (!·.isPut) = !calls.any Call.isPut := by simp [all_eq_not_any_not]
  cases hput : calls.any Call.isPut with
  | true =>
    refine iff_of_true ?_ (by simp)
    rw [hputs, hput] at hreads
    cases hstale : (build calls).allowStale with
    | false => exact agrees_of_not_allowStale hstale
    | true => exact fun sent hsent => by simp [not_sent hstale hreads] at hsent
  | false =>
    rw [hputs, hput] at hreads
    have hstale := allowStale_build (hputs.trans (by rw [hput]; rfl))
    by_cases hmem : .allowStale ∈ calls
    · rw [agrees_iff_of_reads (hstale.trans (decide_eq_true hmem)) hreads, hdeletes]
      simp [hmem]
    · exact iff_of_true (agrees_of_not_allowStale (hstale.trans (decide_eq_false hmem))) (by simp [hmem])

/-- A delete is sent as a stale transaction to any instance, and no follower takes it. -/
theorem stale_delete_refused : ∃ sent,
    (build [.delete "k", .allowStale]).exeTrans = some sent ∧ sent.leader = false ∧
      sent.request.allowStale = true ∧ KVTransCommand.isFollowerReadCmd sent.request = false :=
  ⟨_, rfl, rfl, rfl, rfl⟩

end MiniTransaction

end Goblin.Client.Builder
