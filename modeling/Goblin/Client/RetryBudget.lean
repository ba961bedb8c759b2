import Goblin.Client.Responses
import Mathlib

/-! How often `RaftClusterClient.execute` tries, and what it leaves in the counter of the thread, which all clients
of the thread share. -/
namespace Goblin.Client.RetryBudget

open Responses List

/-- What one attempt meets. `throws` stands for every exception of the call that is not an access exception. -/
inductive Attempt
  | timesOut
  | throws
  | accessFails (resourceExhausted : Bool)
  | replies (code : Code) (redirect : Redirect)
  deriving DecidableEq, Repr

/-- Neither the pool nor the response plays a part in the count. -/
abbrev Next := Responses.Next Unit Unit

def attempt (clusterSize : ℕ) (isDelete : Bool) (retryTimes : ℕ) : Attempt → Next
  | .timesOut => .exit .failed retryTimes ()
  | .throws => .exit .failed retryTimes ()
  | .accessFails resourceExhausted => accessException ⟨id, id, id⟩ clusterSize resourceExhausted retryTimes ()
  | .replies code redirect => receive ⟨id, id, id⟩ clusterSize true isDelete code () redirect retryTimes ()

/-- How many attempts are made, and how the call stands after them; it is still going on if they run out. -/
def execute (clusterSize : ℕ) (isDelete : Bool) : List Attempt → ℕ → ℕ × Next
  | [], retryTimes => (0, .again retryTimes ())
  | a :: as, retryTimes =>
    match attempt clusterSize isDelete retryTimes a with
    | .exit ending retryTimes _ => (1, .exit ending retryTimes ())
    | .again retryTimes _ =>
      ((execute clusterSize isDelete as retryTimes).1 + 1, (execute clusterSize isDelete as retryTimes).2)

structure Call where
  clusterSize : ℕ
  isDelete : Bool
  attempts : List Attempt

/-- The calls of a thread, one after the other. -/
def results : List Call → ℕ → List (Call × ℕ × Next)
  | [], _ => []
  | c :: calls, retryTimes =>
    (c, execute c.clusterSize c.isDelete c.attempts retryTimes) ::
      match (execute c.clusterSize c.isDelete c.attempts retryTimes).2 with
      | .exit _ retryTimes _ => results calls retryTimes
      | .again .. => []

/-- Attempts that are counted if they are repeated and that reset the counter if they end the call. -/
def Attempt.Counted (isDelete : Bool) : Attempt → Prop
  | .timesOut => False
  | .throws => False
  | .accessFails resourceExhausted => resourceExhausted = false
  | .replies code redirect =>
    actionTable code ≠ .SERVER_ROUTE_OUT_OF_DATE ∧
    (actionTable code = .KEY_NOT_EXIST → isDelete = false) ∧
    (actionTable code = .REDIRECT → redirect = .followed ∨ redirect = .connectFails false)

section

variable {clusterSize : ℕ} {isDelete : Bool} {retryTimes : ℕ}

/-- The call ends with the counter at 0, or goes on with a counter that has grown within the budget. -/
def Bounded (clusterSize retryTimes : ℕ) : Next → Prop
  | .exit _ after _ => after = 0
  | .again after _ => retryTimes < after ∧ after ≤ clusterSize * MAX_RETRY_CYCLE

theorem bounded_increase {next : ℕ → Unit → Next} {times : ℕ}
    (h : times < clusterSize * MAX_RETRY_CYCLE → Bounded clusterSize retryTimes (next (times + 1) ())) :
    Bounded clusterSize retryTimes (increaseRetryTimeAndCheck clusterSize next times ()) := by
  unfold increaseRetryTimeAndCheck
  by_cases hspent : times ≥ clusterSize * MAX_RETRY_CYCLE
  · rw [if_pos hspent]
    exact rfl
  · rw [if_neg hspent]
    exact h (by omega)

theorem bounded_accessException {times : ℕ} (hle : retryTimes ≤ times) :
    Bounded clusterSize retryTimes (accessException ⟨id, id, id⟩ clusterSize false times ()) :=
  bounded_increase fun hlt => ⟨Nat.lt_succ_of_le hle, hlt⟩

theorem bounded_attempt {a : Attempt} (h : a.Counted isDelete) :
    Bounded clusterSize retryTimes (attempt clusterSize isDelete retryTimes a) := by
  cases a with
  | timesOut => cases h
  | throws => cases h
  | accessFails resourceExhausted =>
    cases h
    exact bounded_accessException le_rfl
  | replies code redirect =>
    obtain ⟨hroute, hdelete, hredirect⟩ := h
    have hretry (h : needRetry code = true) (hnext : retryTimes < clusterSize * MAX_RETRY_CYCLE →
        Bounded clusterSize retryTimes
          (doAction ⟨id, id, id⟩ clusterSize true isDelete code () redirect (retryTimes + 1) ())) :
        Bounded clusterSize retryTimes (attempt clusterSize isDelete retryTimes (.replies code redirect)) := by
      rw [attempt, receive, if_pos h]
      exact bounded_increase hnext
    cases haction : actionTable code with
    | SERVER_ROUTE_OUT_OF_DATE => exact absurd haction hroute
    | KEY_NOT_EXIST =>
      simp only [attempt, receive, needRetry, doAction, haction, hdelete haction]
      exact rfl
    | REDIRECT =>
      apply hretry (by simp [needRetry, haction])
      simp only [doAction, haction]
      obtain rfl | rfl := hredirect haction
      · exact fun hlt => ⟨Nat.lt_succ_self _, hlt⟩
      · exact fun _ => bounded_accessException (Nat.le_succ _)
    | INPROGRESS | SERVICE_UNAVAILABLE =>
      apply hretry (by simp [needRetry, haction])
      simp only [doAction, haction]
      exact fun hlt => ⟨Nat.lt_succ_self _, hlt⟩
    | _ =>
      simp only [attempt, receive, needRetry, doAction, haction]
      exact rfl

/-- Induction on the attempts: each one that is repeated takes one from the budget. -/
theorem execute_bounded {as : List Attempt} (h : ∀ a ∈ as, a.Counted isDelete)
    (hbudget : retryTimes ≤ clusterSize * MAX_RETRY_CYCLE) :
    retryTimes + (execute clusterSize isDelete as retryTimes).1 ≤ clusterSize * MAX_RETRY_CYCLE + 1 ∧
      ∀ ending after, (execute clusterSize isDelete as retryTimes).2 = .exit ending after () → after = 0 := by
  induction as generalizing retryTimes with
  | nil =>
    constructor
    · exact Nat.le_succ_of_le hbudget
    · exact nofun
  | cons a as ih =>
    have hattempt : Bounded clusterSize retryTimes (attempt clusterSize isDelete retryTimes a) :=
      bounded_attempt (h a mem_cons_self)
    unfold execute
    cases hnext : attempt clusterSize isDelete retryTimes a with
    | exit ending after pool =>
      rw [hnext] at hattempt
      constructor
      · exact Nat.succ_le_succ hbudget
      · rintro _ after' ⟨⟩
        exact hattempt
    | again after pool =>
      rw [hnext] at hattempt
      obtain ⟨hgrown, hwithin⟩ := hattempt
      obtain ⟨hcount, hexit⟩ := ih (fun a ha => h a (mem_cons_of_mem _ ha)) hwithin
      constructor
      · dsimp only
        omega
      · exact hexit

end

/-- On every thread whose attempts are all counted: no call makes more than three attempts for each instance and one,
and every call that ends leaves the counter at 0. -/
theorem retry_budget_bounded {calls : List Call} (h : ∀ c ∈ calls, ∀ a ∈ c.attempts, a.Counted c.isDelete) :
    ∀ r ∈ results calls 0,
      r.2.1 ≤ 3 * r.1.clusterSize + 1 ∧ ∀ ending after, r.2.2 = .exit ending after () → after = 0 := by
  induction calls with
  | nil => exact nofun
  | cons c calls ih =>
    obtain ⟨hcount, hexit⟩ := execute_bounded (h c mem_cons_self) (Nat.zero_le (c.clusterSize * MAX_RETRY_CYCLE))
    intro r hr
    obtain rfl | hr := mem_cons.mp hr
    · constructor
      · dsimp only
        unfold MAX_RETRY_CYCLE at hcount
        omega
      · exact hexit
    · cases hnext : (execute c.clusterSize c.isDelete c.attempts 0).2 with
      | again after pool => simp [hnext] at hr
      | exit ending after pool =>
        rw [hnext] at hr
        cases hexit ending after hnext
        exact ih (fun c hc => h c (mem_cons_of_mem _ hc)) r hr

/-- One instance that answers the second attempt. -/
def answeredCall : Call := ⟨1, false, [.accessFails false, .replies (.of .OK) .followed]⟩

/-- One instance that cannot be reached. -/
def deadCall : Call := ⟨1, false, replicate 4 (.accessFails false)⟩

/-- The second call has its whole budget. -/
theorem retry_budget_of_one :
    results [answeredCall, deadCall] 0 =
      [(answeredCall, 2, .exit (.returned ()) 0 ()), (deadCall, 4, .exit .failed 0 ())] ∧
    ∀ r ∈ results [answeredCall, deadCall] 0,
      r.2.1 ≤ 3 * r.1.clusterSize + 1 ∧ ∀ ending after, r.2.2 = .exit ending after () → after = 0 := by
  refine ⟨rfl, retry_budget_bounded fun c hc a ha => ?_⟩
  obtain rfl | rfl := mem_pair.mp hc
  · obtain rfl | rfl := mem_pair.mp ha
    · exact rfl
    · exact ⟨nofun, nofun, nofun⟩
  · cases eq_of_mem_replicate ha
    exact rfl

/-- Answers that the route of the server is old are repeated without a count, and a delete of a missing key leaves
the counter as it is, so that the next call has less than its budget. -/
theorem retry_budget_lost :
    (execute 1 false (List.replicate 5 (.replies (.of .SERVER_ROUTE_OUT_OF_DATE) .followed)) 0).1 = 5 ∧
      (execute 1 true [.accessFails false, .replies (.of .KEY_NOT_EXIST) .followed] 0).2 = .exit .failed 1 () :=
  ⟨rfl, rfl⟩

end Goblin.Client.RetryBudget
