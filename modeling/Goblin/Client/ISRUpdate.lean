import Goblin.Client.ClientPool
import Goblin.Client.Positions

/-! One round of `ISRClientPool.updateISRList`: the attempts to ask the leader, and the check of the lease. -/
namespace Goblin.Client.ISRUpdate

open RaftClusterClient (Characters)

/-- What the leader says of the members; offsets are `long`. -/
structure MemberOffsetResponse where
  leaderAddress : String
  leaderCommitIndex : ℤ
  followerMatchedIndex : List (String × ℤ)
  deriving DecidableEq, Repr

/-- What an attempt gets from the client that is asked: the code 200 with a response, anything else with the hint that
may come with it, or an exception. -/
inductive Result
  | ok (res : MemberOffsetResponse)
  | refused (leaderHint : Option String)
  | thrown
  deriving DecidableEq, Repr

/-- `split` drops empty strings at the end, so that nothing stands at the first place for an address of `@` alone. -/
def instanceIdOf (address : String) : Option String :=
  if address ≠ "" ∧ address.toList.all (· = '@') then none
  else some (String.ofList (address.toList.takeWhile (· ≠ '@')))

structure Round where
  inner : RoundRobinRaftClientPool
  retryTimes : ℕ := 0
  tmpList : Finset ℤ := ∅
  updated : Bool := false

def RETRY_TIME : ℕ := 5

def Round.Done (r : Round) : Prop := r.updated = true ∨ RETRY_TIME < r.retryTimes

instance (r : Round) : Decidable r.Done := inferInstanceAs (Decidable (_ ∨ _))

/-- Behind the `catch`: the next client is taken for the leader. -/
def Round.tryOther (r : Round) (leaderIdx : ℤ) : Round :=
  { r with inner := r.inner.reportLeader ((leaderIdx + 1) % r.inner.size), retryTimes := r.retryTimes + 1 }

section Attempt

variable (tables : Characters) (ids : List String) (minISRGap : ℤ)

/-- Of the clients with the given ids; -1 for an id that is not configured. -/
def findIdxFromInstanceId (id : String) : ℤ := (ids.findIdx? (tables.equalsIgnoreCase id)).elim (-1) (↑)

/-- The loop over the followers: the indices of those within the gap are added, up to an address that throws. -/
def addFollowers (leaderOffset : ℤ) (tmpList : Finset ℤ) : List (String × ℤ) → Finset ℤ × Bool
  | [] => (tmpList, true)
  | (address, offset) :: entries =>
    if (leaderOffset - offset).bmod (2 ^ 64) ≤ minISRGap then
      match instanceIdOf address with
      | none => (tmpList, false)
      | some id => addFollowers leaderOffset (insert (findIdxFromInstanceId tables ids id) tmpList) entries
    else addFollowers leaderOffset tmpList entries

/-- A hint at a configured client is followed without a count. -/
def Round.attempt (r : Round) : Result → Round
  | .ok res =>
    match instanceIdOf res.leaderAddress with
    | none => r.tryOther r.inner.leaderIndex
    | some id =>
      let leaderIdx := findIdxFromInstanceId tables ids id
      let added := addFollowers tables ids minISRGap res.leaderCommitIndex r.tmpList res.followerMatchedIndex
      let r := { r with inner := r.inner.reportLeader leaderIdx, tmpList := added.1 }
      if added.2 then { r with updated := true } else r.tryOther leaderIdx
  | .refused leaderHint =>
    match leaderHint.bind instanceIdOf with
    | none => r.tryOther r.inner.leaderIndex
    | some id =>
      let leaderHintIdx := findIdxFromInstanceId tables ids id
      if 0 ≤ leaderHintIdx then { r with inner := r.inner.reportLeader leaderHintIdx }
      else r.tryOther r.inner.leaderIndex
  | .thrown => r.tryOther r.inner.leaderIndex

/-- The round after at most `n` attempts. -/
def after (inner : RoundRobinRaftClientPool) (results : ℕ → Result) : ℕ → Round
  | 0 => { inner }
  | n + 1 =>
    if (after inner results n).Done then after inner results n
    else (after inner results n).attempt tables ids minISRGap (results n)

/-- The round makes `n` attempts. -/
def Ends (inner : RoundRobinRaftClientPool) (results : ℕ → Result) (n : ℕ) : Prop :=
  (after tables ids minISRGap inner results n).Done ∧
    ∀ m < n, ¬ (after tables ids minISRGap inner results m).Done

end Attempt

structure Lease where
  ISRList : Finset ℤ := ∅
  lastUpdate : ℕ := 0
  deriving DecidableEq

/-- The rest of a round. `printISRList` throws for a follower that is not configured, and the thread ends. -/
def Lease.finish (s : Lease) (r : Round) (leaseTime updatedAt checkedAt : ℕ) : Option Lease :=
  let s := if r.updated then ⟨r.tmpList, updatedAt⟩ else s
  if r.updated ∧ ∃ i ∈ r.tmpList, i < 0 then none
  else if checkedAt > s.lastUpdate + leaseTime then some { s with ISRList := ∅ }
  else some s

/-- What a result is for the round: the list of a leader, the part of such a list up to an exception, or a refusal with
the index that is hinted at. -/
inductive Answer
  | leader (indices : Finset ℤ)
  | interrupted (indices : Finset ℤ)
  | refused (leaderHintIdx : ℤ)
  deriving DecidableEq

def Result.answer (tables : Characters) (ids : List String) (minISRGap : ℤ) : Result → Answer
  | .ok res =>
    if (instanceIdOf res.leaderAddress).isNone then .interrupted ∅
    else
      let added := addFollowers tables ids minISRGap res.leaderCommitIndex ∅ res.followerMatchedIndex
      if added.2 then .leader added.1 else .interrupted added.1
  | .refused leaderHint => .refused ((leaderHint.bind instanceIdOf).elim (-1) (findIdxFromInstanceId tables ids))
  | .thrown => .interrupted ∅

namespace Answer

def isLeader : Answer → Bool
  | .leader _ => true
  | _ => false

def isFollowed : Answer → Bool
  | .refused leaderHintIdx => 0 ≤ leaderHintIdx
  | _ => false

def indices : Answer → Finset ℤ
  | .leader indices | .interrupted indices => indices
  | .refused _ => ∅

end Answer

/-- How many of the first answers are hints that are followed. -/
def followed (answers : ℕ → Answer) : ℕ → ℕ
  | 0 => 0
  | n + 1 => followed answers n + if (answers n).isFollowed then 1 else 0

/-- A leader has answered, or six answers were neither from a leader nor hints that are followed. -/
def Stops (answers : ℕ → Answer) (n : ℕ) : Prop :=
  (∃ i < n, (answers i).isLeader = true) ∨ followed answers n + (RETRY_TIME + 1) ≤ n

/-- The followers of the first answers. -/
def taken (answers : ℕ → Answer) (n : ℕ) : Finset ℤ := (Finset.range n).biUnion fun i => (answers i).indices

/-- If a leader has answered, then all followers of the round are configured; and they are those of its answer, or the
lease is over at once. -/
def Whole (answers : ℕ → Answer) (leaseTime updatedAt checkedAt n : ℕ) : Prop :=
  ∀ i < n, ∀ indices, answers i = .leader indices →
    (∀ j ∈ taken answers n, 0 ≤ j) ∧ (taken answers n = indices ∨ updatedAt + leaseTime < checkedAt)

section

variable {tables : Characters} {ids : List String} {minISRGap : ℤ}

theorem addFollowers_eq (leaderOffset : ℤ) (tmpList : Finset ℤ) (entries : List (String × ℤ)) :
    addFollowers tables ids minISRGap leaderOffset tmpList entries =
      (tmpList ∪ (addFollowers tables ids minISRGap leaderOffset ∅ entries).1,
        (addFollowers tables ids minISRGap leaderOffset ∅ entries).2) := by
  induction entries generalizing tmpList with
  | nil => simp [addFollowers]
  | cons entry entries ih =>
    unfold addFollowers
    split_ifs
    · cases instanceIdOf entry.1 with
      | none => simp
      | some id =>
        simp only
        rw [ih, ih (insert _ ∅)]
        simp [Finset.union_insert, Finset.insert_union]
    · exact ih tmpList

/-- What an attempt counts and keeps depends on the answer only. -/
theorem attempt_spec (r : Round) (res : Result) :
    match res.answer tables ids minISRGap, r.attempt tables ids minISRGap res with
    | .leader indices, t => t.updated = true ∧ t.retryTimes = r.retryTimes ∧ t.tmpList = r.tmpList ∪ indices
    | .interrupted indices, t =>
      t.updated = r.updated ∧ t.retryTimes = r.retryTimes + 1 ∧ t.tmpList = r.tmpList ∪ indices
    | .refused leaderHintIdx, t => t.updated = r.updated ∧ t.tmpList = r.tmpList ∧
      t.retryTimes = r.retryTimes + if 0 ≤ leaderHintIdx then 0 else 1 := by
  cases res with
  | ok res =>
    simp only [Result.answer, Round.attempt]
    cases instanceIdOf res.leaderAddress with
    | none => simp [Round.tryOther]
    | some id =>
      simp only [addFollowers_eq res.leaderCommitIndex r.tmpList]
      cases (addFollowers tables ids minISRGap res.leaderCommitIndex ∅ res.followerMatchedIndex).2 <;>
        simp [Round.tryOther]
  | refused leaderHint =>
    simp only [Result.answer, Round.attempt]
    cases leaderHint.bind instanceIdOf with
    | none => simp [Round.tryOther]
    | some id =>
      simp only [Option.elim_some]
      split_ifs with hconfigured <;> simp [Round.tryOther, hconfigured]
  | thrown => simp [Result.answer, Round.attempt, Round.tryOther]

end

section

variable {answers : ℕ → Answer} {n : ℕ}

theorem stops_succ_of_leader (h : (answers n).isLeader = true) : Stops answers (n + 1) :=
  .inl ⟨n, by omega, h⟩

theorem stops_succ_iff (h : ¬ Stops answers n) (hleader : (answers n).isLeader = false) :
    Stops answers (n + 1) ↔ followed answers (n + 1) + (RETRY_TIME + 1) ≤ n + 1 := by
  constructor
  · rintro (⟨i, hi, hanswer⟩ | hcount)
    · by_cases hlast : i = n
      · rw [hlast, hleader] at hanswer
        cases hanswer
      · exact absurd (.inl ⟨i, by omega, hanswer⟩) h
    · exact hcount
  · exact .inr

theorem taken_succ (answers : ℕ → Answer) (n : ℕ) : taken answers (n + 1) = taken answers n ∪ (answers n).indices := by
  simp [taken, Finset.range_add_one, Finset.biUnion_insert, Finset.union_comm]

/-- In a round of `n` attempts no other answer than the last one comes from a leader. -/
theorem eq_last_of_leader {i : ℕ} (h : ∀ m < n, ¬ Stops answers m) (hi : i < n)
    (hleader : (answers i).isLeader = true) :
    n = i + 1 := by
  by_contra hne
  exact h (i + 1) (by omega) (stops_succ_of_leader hleader)

end

section

variable {tables : Characters} {ids : List String} {minISRGap : ℤ} {inner : RoundRobinRaftClientPool}
  {results : ℕ → Result}

/-- Until the answers stop the round every answer is counted or followed, and its followers are kept. The last attempt
may be one that stops it. -/
theorem after_inv (n : ℕ) (hstops : ∀ m < n, ¬ Stops (fun i => (results i).answer tables ids minISRGap) m) :
    let answers := fun i => (results i).answer tables ids minISRGap
    let r := after tables ids minISRGap inner results n
    (r.Done ↔ Stops answers n) ∧ (r.updated = true ↔ ∃ i < n, (answers i).isLeader = true) ∧
      r.tmpList = taken answers n ∧ (¬ Stops answers n → r.retryTimes + followed answers n = n) := by
  intro answers
  induction n with
  | zero => simp [after, Round.Done, Stops, followed, taken, RETRY_TIME]
  | succ n ih =>
    obtain ⟨hdone, hupdated, hlist, hcount⟩ := ih fun m hm => hstops m (by omega)
    have hgoes := hstops n (by omega)
    have hretry := hcount hgoes
    have hnotDone := mt hdone.mp hgoes
    have hfresh : (after tables ids minISRGap inner results n).updated = false :=
      Bool.eq_false_iff.mpr fun h => hnotDone (.inl h)
    have hnone : ¬ ∃ i < n, (answers i).isLeader = true := mt .inl hgoes
    have hfew : (after tables ids minISRGap inner results n).retryTimes ≤ RETRY_TIME :=
      not_lt.mp fun h => hnotDone (.inr h)
    have hspec := @attempt_spec tables ids minISRGap (after tables ids minISRGap inner results n) (results n)
    have hleader (h : (answers n).isLeader = false) : ¬ ∃ i < n + 1, (answers i).isLeader = true := by
      rintro ⟨i, hi, hi'⟩
      obtain rfl | hlt := Nat.lt_succ_iff_lt_or_eq.mp hi |>.symm
      · rw [h] at hi'
        cases hi'
      · exact hnone ⟨i, hlt, hi'⟩
    simp only [after, if_neg hnotDone, taken_succ]
    cases hanswer : answers n with
    | leader indices =>
      rw [show (results n).answer tables ids minISRGap = .leader indices from hanswer] at hspec
      have hlast : (answers n).isLeader = true := by rw [hanswer]; rfl
      refine ⟨iff_of_true (.inl hspec.1) (stops_succ_of_leader hlast), iff_of_true hspec.1 ⟨n, by omega, hlast⟩, ?_,
        fun h => absurd (stops_succ_of_leader hlast) h⟩
      rw [hspec.2.2, hlist]
      rfl
    | interrupted indices =>
      rw [show (results n).answer tables ids minISRGap = .interrupted indices from hanswer] at hspec
      have hlast : (answers n).isLeader = false := by rw [hanswer]; rfl
      obtain ⟨hu, hr, ht⟩ := hspec
      rw [hfresh] at hu
      have hfollowed : followed answers (n + 1) = followed answers n := by
        simp [followed, hanswer, Answer.isFollowed]
      rw [Round.Done, hu, hr, ht, hlist, stops_succ_iff hgoes hlast, hfollowed]
      refine ⟨by simp; omega, iff_of_false Bool.false_ne_true (hleader hlast), rfl, fun _ => by omega⟩
    | refused leaderHintIdx =>
      rw [show (results n).answer tables ids minISRGap = .refused leaderHintIdx from hanswer] at hspec
      have hlast : (answers n).isLeader = false := by rw [hanswer]; rfl
      obtain ⟨hu, ht, hr⟩ := hspec
      rw [hfresh] at hu
      have hfollowed : followed answers (n + 1) = followed answers n + if 0 ≤ leaderHintIdx then 1 else 0 := by
        simp [followed, hanswer, Answer.isFollowed]
      rw [Round.Done, hu, hr, ht, hlist, stops_succ_iff hgoes hlast, hfollowed]
      refine ⟨?_, iff_of_false Bool.false_ne_true (hleader hlast), by simp [Answer.indices], fun _ => ?_⟩
      · split_ifs <;> simp <;> omega
      · split_ifs <;> omega

end

/-- The list of a leader of the round of `n` attempts, the one from before within its lease, or none. -/
def Refreshed (answers : ℕ → Answer) (s t : Lease) (updated : Bool) (leaseTime checkedAt n : ℕ) : Prop :=
  (∃ i < n, answers i = .leader t.ISRList) ∨
    (updated = false ∧ t = s ∧ checkedAt ≤ s.lastUpdate + leaseTime) ∨ t.ISRList = ∅

section

variable {tables : Characters} {ids : List String} {minISRGap : ℤ} {inner : RoundRobinRaftClientPool}
  {results : ℕ → Result}

theorem ends_iff (n : ℕ) : Ends tables ids minISRGap inner results n ↔
    Stops (fun i => (results i).answer tables ids minISRGap) n ∧
      ∀ m < n, ¬ Stops (fun i => (results i).answer tables ids minISRGap) m := by
  have hequiv (k : ℕ) (hk : ∀ m < k, ¬ Stops (fun i => (results i).answer tables ids minISRGap) m) :
      (after tables ids minISRGap inner results k).Done ↔ Stops (fun i => (results i).answer tables ids minISRGap) k :=
    (after_inv k hk).1
  have hbefore : (∀ m < n, ¬ (after tables ids minISRGap inner results m).Done) ↔
      ∀ m < n, ¬ Stops (fun i => (results i).answer tables ids minISRGap) m := by
    constructor
    · intro h m
      induction m using Nat.strong_induction_on with
      | _ m ih => exact fun hm => mt (hequiv m fun k hk => ih k hk (by omega)).mpr (h m hm)
    · exact fun h m hm => mt (hequiv m fun k hk => h k (by omega)).mp (h m hm)
  unfold Ends
  rw [hbefore]
  exact and_congr_left fun h => hequiv n h

/-- With what a round of `n` attempts gets to the check of the lease. -/
theorem finish_iff {s : Lease} {leaseTime updatedAt checkedAt n : ℕ}
    (hstops : ∀ m < n, ¬ Stops (fun i => (results i).answer tables ids minISRGap) m) :
    (∃ t, s.finish (after tables ids minISRGap inner results n) leaseTime updatedAt checkedAt = some t ∧
        Refreshed (fun i => (results i).answer tables ids minISRGap) s t
          (after tables ids minISRGap inner results n).updated leaseTime checkedAt n) ↔
      Whole (fun i => (results i).answer tables ids minISRGap) leaseTime updatedAt checkedAt n := by
  obtain ⟨-, hupdated, hlist, -⟩ := @after_inv tables ids minISRGap inner results n hstops
  set r := after tables ids minISRGap inner results n
  set answers := fun i => (results i).answer tables ids minISRGap with hanswers
  cases hr : r.updated with
  | false =>
    rw [hr] at hupdated
    refine iff_of_true ?_ fun i hi indices hleader => ?_
    · simp only [Lease.finish, hr, Bool.false_eq_true, ↓reduceIte, false_and]
      split_ifs with hlease
      · exact ⟨_, rfl, .inr (.inr rfl)⟩
      · exact ⟨_, rfl, .inr (.inl ⟨rfl, rfl, not_lt.mp hlease⟩)⟩
    · cases hupdated.mpr ⟨i, hi, by rw [hleader]; rfl⟩
  | true =>
    obtain ⟨i, hi, hleader⟩ := hupdated.mp hr
    obtain rfl := eq_last_of_leader hstops hi hleader
    obtain ⟨indices, hindices⟩ : ∃ indices, answers i = .leader indices := by
      cases hanswer : answers i with
      | leader indices => exact ⟨indices, rfl⟩
      | interrupted _ => rw [hanswer] at hleader; cases hleader
      | refused _ => rw [hanswer] at hleader; cases hleader
    have honly (j : ℕ) (hj : j < i + 1) (list : Finset ℤ) (h : answers j = .leader list) : list = indices := by
      have heq := eq_last_of_leader hstops hj (by rw [h]; rfl)
      obtain rfl : i = j := by omega
      cases h.symm.trans hindices
      rfl
    have hincl : indices ⊆ taken answers (i + 1) := by
      rw [taken_succ, hindices]
      exact Finset.subset_union_right
    simp only [Lease.finish, hr, if_true, true_and, hlist]
    constructor
    · rintro ⟨t, hfinish, hrefreshed⟩ j hj list hlist'
      obtain rfl := honly j hj list hlist'
      split_ifs at hfinish with hprinted hlease
      · exact ⟨fun k hk => not_lt.mp fun hneg => hprinted ⟨k, hk, hneg⟩, .inr hlease⟩
      · cases hfinish
        refine ⟨fun k hk => not_lt.mp fun hneg => hprinted ⟨k, hk, hneg⟩, .inl ?_⟩
        obtain ⟨k, hk, hsame⟩ | ⟨hfalse, -⟩ | hempty := hrefreshed
        · exact honly k hk _ hsame
        · cases hfalse
        · have hnone : taken answers (i + 1) = ∅ := hempty
          rw [hnone] at hincl ⊢
          exact (Finset.subset_empty.mp hincl).symm
    · intro hwhole
      obtain ⟨hconfigured, hall⟩ := hwhole i hi indices hindices
      rw [if_neg fun ⟨k, hk, hneg⟩ => not_le.mpr hneg (hconfigured k hk)]
      split_ifs with hlease
      · exact ⟨_, rfl, .inr (.inr rfl)⟩
      · refine ⟨_, rfl, .inl ⟨i, hi, ?_⟩⟩
        rw [hindices, hall.resolve_right hlease]

end

/-- A round makes a number of attempts, gets to the check of the lease and leaves a list of a leader of this round, one
within its lease or none, exactly when the answers stop it, for whatever answers, and those up to a leader's are
whole. -/
theorem isr_round_refreshes (tables : Characters) (ids : List String) (minISRGap : ℤ)
    (inner : RoundRobinRaftClientPool) (results : ℕ → Result) (s : Lease) (leaseTime updatedAt checkedAt : ℕ) :
    (∃ n t, Ends tables ids minISRGap inner results n ∧
      s.finish (after tables ids minISRGap inner results n) leaseTime updatedAt checkedAt = some t ∧
      Refreshed (fun i => (results i).answer tables ids minISRGap) s t
        (after tables ids minISRGap inner results n).updated leaseTime checkedAt n) ↔
    ∃ n, Stops (fun i => (results i).answer tables ids minISRGap) n ∧
      (∀ m < n, ¬ Stops (fun i => (results i).answer tables ids minISRGap) m) ∧
      Whole (fun i => (results i).answer tables ids minISRGap) leaseTime updatedAt checkedAt n := by
  constructor
  · rintro ⟨n, t, hends, hfinish⟩
    obtain ⟨hstops, hbefore⟩ := (ends_iff n).mp hends
    exact ⟨n, hstops, hbefore, (finish_iff hbefore).mp ⟨t, hfinish⟩⟩
  · rintro ⟨n, hstops, hbefore, hwhole⟩
    obtain ⟨t, hfinish⟩ := (finish_iff hbefore).mpr hwhole
    exact ⟨n, t, (ends_iff n).mpr ⟨hstops, hbefore⟩, hfinish⟩

/-- A client that names itself as the leader is asked for ever, and a follower that is not configured ends the thread
before the check. -/
theorem isr_round_stuck :
    (∀ n, ¬ (after .ascii ["1"] 0 { size := 1, sameDC := fun _ => true } (fun _ => .refused (some "1@h")) n).Done) ∧
      Lease.finish {} (after .ascii ["1"] 0 { size := 1, sameDC := fun _ => true }
        (fun _ => .ok ⟨"1@h", 5, [("2@h", 5)]⟩) 1) 10 0 0 = none := by
  have hanswer : (Result.refused (some "1@h")).answer .ascii ["1"] 0 = .refused 0 := by decide
  have hstops (n : ℕ) : ¬ Stops (fun _ => (Result.refused (some "1@h")).answer .ascii ["1"] 0) n := by
    have hall : followed (fun _ => .refused 0) n = n := by
      induction n with
      | zero => rfl
      | succ n ih => simp [followed, ih, Answer.isFollowed]
    rw [hanswer]
    rintro (⟨i, -, hleader⟩ | hcount)
    · cases hleader
    · omega
  exact ⟨fun n hdone => hstops n ((after_inv n fun m _ => hstops m).1.mp hdone), by decide⟩

end Goblin.Client.ISRUpdate
