import Goblin.Client.Responses
import Mathlib

/-! The pools of the Java client: which instance a read that may be stale goes to. -/
namespace Goblin.Client

open List

/-- `sameDC` says that the domain name of a client is not blank and contains the name of the data center. -/
structure RoundRobinRaftClientPool extends LeaderOnlyClientPool where
  sameDC : ℕ → Bool
  roundRobinIndex : ℕ := 0
  unavailableUntil : ℕ → ℤ := fun _ => -1

namespace RoundRobinRaftClientPool

def available (p : RoundRobinRaftClientPool) (now idx : ℕ) : Bool :=
  !(p.unavailableUntil idx ≠ -1 ∧ (now : ℤ) < p.unavailableUntil idx)

/-- The first index after `roundRobinIndex` that is accepted. -/
def scan (p : RoundRobinRaftClientPool) (accept : ℕ → Bool) : Option ℕ :=
  ((List.range p.size).map fun i => (p.roundRobinIndex + (i + 1)) % p.size).find? accept

def select (p : RoundRobinRaftClientPool) (idx : ℕ) : ℕ × RoundRobinRaftClientPool :=
  (idx, { p with unavailableUntil := Function.update p.unavailableUntil idx (-1), roundRobinIndex := idx })

/-- If all clients are unavailable, back to 0. -/
def roundRobin (p : RoundRobinRaftClientPool) (now : ℕ) : ℕ × RoundRobinRaftClientPool :=
  match p.scan fun idx => p.available now idx && p.sameDC idx with
  | some idx => p.select idx
  | none =>
    match p.scan (p.available now) with
    | some idx => p.select idx
    | none => (0, p)

def pick (p : RoundRobinRaftClientPool) (leader : Bool) (now : ℕ) : ℕ × RoundRobinRaftClientPool :=
  if leader then (p.leaderIndex, p) else p.roundRobin now

def reportLeader (p : RoundRobinRaftClientPool) (index : ℤ) : RoundRobinRaftClientPool :=
  { p with toLeaderOnlyClientPool := p.toLeaderOnlyClientPool.reportLeader index }

/-- An index outside of the pool throws before anything has changed. -/
def markDown (p : RoundRobinRaftClientPool) (index : ℤ) (downTimeInMs : ℤ) (now : ℕ) : RoundRobinRaftClientPool :=
  if 0 ≤ index ∧ index < p.size then
    { p with
      toLeaderOnlyClientPool := p.toLeaderOnlyClientPool.markDown index.toNat
      unavailableUntil := Function.update p.unavailableUntil index.toNat (now + downTimeInMs) }
  else p

end RoundRobinRaftClientPool

/-- The list may hold -1, for a follower that is not configured. -/
structure ISRClientPool where
  inner : RoundRobinRaftClientPool
  ISRList : List ℤ := []

namespace ISRClientPool

/-- The loop of `pick(false)`: no index if no try finds a client that is in sync. -/
def tries (leaderIdx now : ℕ) : ℕ → ISRClientPool → Option ℕ × ISRClientPool
  | 0, s => (none, s)
  | retries + 1, s =>
    let picked := s.inner.pick false now
    if (picked.1 : ℤ) ∈ s.ISRList ∨ picked.1 = leaderIdx then (some picked.1, { s with inner := picked.2 })
    else tries leaderIdx now retries { s with inner := picked.2.markDown picked.1 1000 now }

/-- The last pick is made with the argument of the call, not with `true`. -/
def pick (s : ISRClientPool) (leader : Bool) (now : ℕ) : ℕ × ISRClientPool :=
  if leader then ((s.inner.pick true now).1, s)
  else
    match tries (s.inner.pick true now).1 now s.inner.size s with
    | (some idx, s) => (idx, s)
    | (none, s) => ((s.inner.pick false now).1, { s with inner := (s.inner.pick false now).2 })

inductive Call
  | pick (leader : Bool) (now : ℕ)
  | markDown (index downTimeInMs : ℤ) (now : ℕ)
  | reportLeader (index : ℤ)
  | updateISRList (list : List ℤ)

def step (s : ISRClientPool) : Call → ISRClientPool
  | .pick leader now => (s.pick leader now).2
  | .markDown index downTimeInMs now => { s with inner := s.inner.markDown index downTimeInMs now }
  | .reportLeader index => { s with inner := s.inner.reportLeader index }
  | .updateISRList list => { s with ISRList := list }

def init (size : ℕ) (sameDC : ℕ → Bool) : ISRClientPool := { inner := { size, sameDC } }

def run (size : ℕ) (sameDC : ℕ → Bool) (calls : List Call) : ISRClientPool :=
  calls.foldl step (init size sameDC)

/-- The current leader, or in the current list. -/
def InSync (s : ISRClientPool) (index : ℕ) : Prop := (index : ℤ) ∈ s.ISRList ∨ index = s.inner.leaderIndex

end ISRClientPool

namespace RoundRobinRaftClientPool

variable {p : RoundRobinRaftClientPool} {now idx : ℕ} {accept : ℕ → Bool}

theorem scan_some (h : p.scan accept = some idx) : idx < p.size ∧ accept idx = true := by
  have hmem := mem_of_find?_eq_some h
  obtain ⟨i, hi, rfl⟩ := mem_map.mp hmem
  have hpos : 0 < p.size := Nat.zero_lt_of_lt (mem_range.mp hi)
  exact ⟨Nat.mod_lt _ hpos, find?_some h⟩

theorem scan_none (h : p.scan accept = none) (hidx : idx < p.size) : accept idx = false := by
  have hall := find?_eq_none.mp h
  have hlt : (p.roundRobinIndex + 1) % p.size < p.size := Nat.mod_lt _ (by omega)
  have hround : (p.roundRobinIndex + ((idx + (p.size - (p.roundRobinIndex + 1) % p.size)) % p.size + 1)) % p.size =
      idx := by
    rw [show ∀ k, p.roundRobinIndex + (k + 1) = (p.roundRobinIndex + 1) + k by intro k; omega, Nat.add_mod,
      Nat.mod_mod, ← Nat.add_mod_mod, Nat.mod_mod, Nat.add_mod_mod,
      show (p.roundRobinIndex + 1) % p.size + (idx + (p.size - (p.roundRobinIndex + 1) % p.size)) =
        idx + p.size by omega,
      Nat.add_mod_right, Nat.mod_eq_of_lt hidx]
  have hmem : idx ∈ (List.range p.size).map fun i => (p.roundRobinIndex + (i + 1)) % p.size :=
    mem_map.mpr ⟨_, mem_range.mpr (Nat.mod_lt _ (by omega)), hround⟩
  simpa using hall idx hmem

theorem roundRobin_cases (p : RoundRobinRaftClientPool) (now : ℕ) :
    (∃ idx < p.size, p.available now idx = true ∧ p.roundRobin now = p.select idx) ∨
      ((∀ idx < p.size, p.available now idx = false) ∧ p.roundRobin now = (0, p)) := by
  unfold roundRobin
  cases hnear : p.scan fun idx => p.available now idx && p.sameDC idx with
  | some idx =>
    have haccept := (scan_some hnear).2
    rw [Bool.and_eq_true] at haccept
    exact .inl ⟨idx, (scan_some hnear).1, haccept.1, rfl⟩
  | none =>
    cases hany : p.scan (p.available now) with
    | some idx => exact .inl ⟨idx, (scan_some hany).1, (scan_some hany).2, rfl⟩
    | none => exact .inr ⟨fun _ => scan_none hany, rfl⟩

theorem available_select (h : p.available now idx = true) (i : ℕ) :
    (p.select idx).2.available now i = p.available now i := by
  by_cases hi : i = idx
  · subst hi
    rw [h]
    simp [select, available]
  · simp [select, available, Function.update_of_ne hi]

theorem available_markDown (hidx : idx < p.size) (i : ℕ) :
    (p.markDown idx 1000 now).available now i = (p.available now i && decide (i ≠ idx)) := by
  unfold markDown
  rw [if_pos (by omega)]
  by_cases hi : i = idx
  · subst hi
    simp [available]
    omega
  · simp [available, hi]

theorem size_markDown (index downTimeInMs : ℤ) : (p.markDown index downTimeInMs now).size = p.size := by
  unfold markDown
  split_ifs <;> rfl

theorem size_roundRobin (p : RoundRobinRaftClientPool) (now : ℕ) : (p.roundRobin now).2.size = p.size := by
  obtain ⟨idx, -, -, hpick⟩ | ⟨-, hpick⟩ := p.roundRobin_cases now
  · rw [hpick]
    rfl
  · rw [hpick]

end RoundRobinRaftClientPool

namespace ISRClientPool

open RoundRobinRaftClientPool

variable {s t : ISRClientPool} {now leaderIdx idx retries : ℕ}

/-- The clients that are not marked down. -/
def candidates (s : ISRClientPool) (now : ℕ) : Finset ℕ :=
  (Finset.range s.inner.size).filter fun i => s.inner.available now i = true

/-- The state after a try that has found no client in sync. -/
def rejected (s : ISRClientPool) (now : ℕ) : ISRClientPool :=
  { s with inner := (s.inner.roundRobin now).2.markDown (s.inner.roundRobin now).1 1000 now }

theorem mem_candidates_or (s : ISRClientPool) (now : ℕ) :
    (s.inner.roundRobin now).1 ∈ s.candidates now ∨
      s.candidates now = ∅ ∧ (s.inner.roundRobin now).1 = 0 := by
  obtain ⟨idx, hidx, havailable, hpick⟩ | ⟨hnone, hpick⟩ := s.inner.roundRobin_cases now
  · rw [hpick]
    exact .inl (Finset.mem_filter.mpr ⟨Finset.mem_range.mpr hidx, havailable⟩)
  · refine .inr ⟨Finset.filter_eq_empty_iff.mpr fun i hi => ?_, by rw [hpick]⟩
    rw [hnone i (Finset.mem_range.mp hi)]
    exact Bool.false_ne_true

theorem candidates_rejected (s : ISRClientPool) (now : ℕ) :
    (s.rejected now).candidates now = (s.candidates now).erase (s.inner.roundRobin now).1 := by
  ext i
  simp only [candidates, rejected, Finset.mem_erase, Finset.mem_filter, Finset.mem_range, size_markDown,
    size_roundRobin]
  by_cases hi : i < s.inner.size
  · obtain ⟨idx, hidx, havailable, hpick⟩ | ⟨hnone, hpick⟩ := s.inner.roundRobin_cases now
    · rw [hpick, available_markDown (show (s.inner.select idx).1 < (s.inner.select idx).2.size from hidx),
        available_select havailable]
      simp [hi, and_comm]
    · rw [hpick, available_markDown (show 0 < s.inner.size by omega), hnone i hi]
      simp
  · simp [hi]

theorem tries_succ (leaderIdx now retries : ℕ) (s : ISRClientPool) :
    tries leaderIdx now (retries + 1) s =
      if ((s.inner.roundRobin now).1 : ℤ) ∈ s.ISRList ∨ (s.inner.roundRobin now).1 = leaderIdx then
        (some (s.inner.roundRobin now).1, { s with inner := (s.inner.roundRobin now).2 })
      else tries leaderIdx now retries (s.rejected now) := rfl

theorem tries_some (h : tries leaderIdx now retries s = (some idx, t)) :
    ((idx : ℤ) ∈ s.ISRList ∨ idx = leaderIdx) ∧ (idx ∈ s.candidates now ∨ idx = 0) := by
  induction retries generalizing s with
  | zero => cases h
  | succ retries ih =>
    rw [tries_succ] at h
    split_ifs at h with hgood
    · cases h
      exact ⟨hgood, (s.mem_candidates_or now).imp_right And.right⟩
    · obtain ⟨hin, hcandidate⟩ := ih h
      refine ⟨hin, hcandidate.imp_left fun hmem => ?_⟩
      rw [candidates_rejected] at hmem
      exact Finset.mem_of_mem_erase hmem

theorem tries_none (hcount : (s.candidates now).card ≤ retries)
    (h : tries leaderIdx now retries s = (none, t)) :
    (∀ i ∈ s.candidates now, ¬ ((i : ℤ) ∈ s.ISRList ∨ i = leaderIdx)) ∧ t.candidates now = ∅ := by
  induction retries generalizing s with
  | zero =>
    cases h
    have hempty := Finset.card_eq_zero.mp (Nat.le_zero.mp hcount)
    exact ⟨by simp [hempty], hempty⟩
  | succ retries ih =>
    rw [tries_succ] at h
    by_cases hgood : ((s.inner.roundRobin now).1 : ℤ) ∈ s.ISRList ∨ (s.inner.roundRobin now).1 = leaderIdx
    · rw [if_pos hgood] at h
      cases h
    rw [if_neg hgood] at h
    have hless : ((s.rejected now).candidates now).card ≤ retries := by
      rw [candidates_rejected]
      obtain hmem | ⟨hempty, -⟩ := s.mem_candidates_or now
      · rw [Finset.card_erase_of_mem hmem]
        omega
      · simp [hempty]
    obtain ⟨hbad, hleft⟩ := ih hless h
    refine ⟨fun i hi => ?_, hleft⟩
    by_cases hpicked : i = (s.inner.roundRobin now).1
    · rwa [hpicked]
    · exact hbad i (by rw [candidates_rejected]; exact Finset.mem_erase_of_ne_of_mem hpicked hi)

theorem pick_false (s : ISRClientPool) (now : ℕ) :
    s.pick false now =
      match tries s.inner.leaderIndex now s.inner.size s with
      | (some idx, s) => (idx, s)
      | (none, s) => ((s.inner.roundRobin now).1, { s with inner := (s.inner.roundRobin now).2 }) := rfl

theorem pick_false_iff (s : ISRClientPool) (now : ℕ) :
    s.InSync (s.pick false now).1 ↔
      (∃ i < s.inner.size, s.inner.available now i = true ∧ s.InSync i) ∨ s.InSync 0 := by
  have hcount : (s.candidates now).card ≤ s.inner.size :=
    (Finset.card_filter_le _ _).trans_eq (Finset.card_range _)
  have hcandidates (i : ℕ) : i ∈ s.candidates now ↔ i < s.inner.size ∧ s.inner.available now i = true := by
    simp [candidates]
  rcases htries : tries s.inner.leaderIndex now s.inner.size s with ⟨found, t⟩
  cases found with
  | some idx =>
    have hpick : (s.pick false now).1 = idx := by rw [pick_false, htries]
    obtain ⟨hin, hcandidate⟩ := tries_some htries
    rw [hpick]
    refine iff_of_true hin ?_
    obtain hmem | rfl := hcandidate
    · exact .inl ⟨idx, ((hcandidates idx).mp hmem).1, ((hcandidates idx).mp hmem).2, hin⟩
    · exact .inr hin
  | none =>
    obtain ⟨hbad, hleft⟩ := tries_none hcount htries
    have hzero : (t.inner.roundRobin now).1 = 0 := by
      obtain hmem | ⟨-, hzero⟩ := t.mem_candidates_or now
      · simp [hleft] at hmem
      · exact hzero
    have hpick : (s.pick false now).1 = 0 := by
      rw [pick_false, htries]
      exact hzero
    rw [hpick]
    refine ⟨.inr, ?_⟩
    rintro (⟨i, hi, havailable, hin⟩ | hin)
    · exact absurd hin (hbad i ((hcandidates i).mpr ⟨hi, havailable⟩))
    · exact hin

/-- Whatever was called before: a read goes to the leader or to a client in sync exactly if one of them is not
marked down or the first client is one of them, and a request for the leader goes to the leader. -/
theorem pick_in_sync_iff (size : ℕ) (sameDC : ℕ → Bool) (calls : List Call) (now : ℕ) :
    ((run size sameDC calls).InSync ((run size sameDC calls).pick false now).1 ↔
      (∃ i < (run size sameDC calls).inner.size, (run size sameDC calls).inner.available now i = true ∧
        (run size sameDC calls).InSync i) ∨ (run size sameDC calls).InSync 0) ∧
    ((run size sameDC calls).pick true now).1 = (run size sameDC calls).inner.leaderIndex :=
  ⟨pick_false_iff _ _, rfl⟩

/-- The leader is marked down and the list is empty: the read goes to the first client, which is neither. -/
theorem pick_out_of_sync :
    let s := run 2 (fun _ => true) [.markDown 1 5000 0, .reportLeader 1]
    (s.pick false 1).1 = 0 ∧ ¬ s.InSync 0 := by
  refine ⟨rfl, ?_⟩
  rintro (hlist | hleader)
  · cases hlist
  · exact absurd hleader (by decide)

end ISRClientPool

end Goblin.Client
