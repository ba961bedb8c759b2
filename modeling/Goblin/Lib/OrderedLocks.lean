import Goblin.Lib.Run

/-! Reader and writer locks that every job takes in one global order: no deadlock, and the mutexes are
at any time exactly what the jobs hold. -/
namespace Goblin.Lib

open List Option Function

/-- A shared mutex: held by one writer, or by a number of readers. -/
structure Mutex where
  writer : Bool := false
  readers : ℕ := 0
  deriving DecidableEq, Repr

namespace Mutex

/-- `none` while the caller would have to wait. -/
def lock (m : Mutex) : Bool → Option Mutex
  | true => if m.writer = false ∧ m.readers = 0 then some { m with writer := true } else none
  | false => if m.writer = false then some { m with readers := m.readers + 1 } else none

def unlock (m : Mutex) : Bool → Mutex
  | true => { m with writer := false }
  | false => { m with readers := m.readers - 1 }

end Mutex

/-- A job takes its locks in ascending order and gives the same locks back. -/
structure Job (L : Type*) [LinearOrder L] where
  locks : List L
  unlocks : List L
  exclusive : Bool
  sorted : locks.Pairwise (· < ·)
  unlocks_eq : unlocks = locks

/-- How many locks a job has taken, or given back. -/
inductive Phase
  | acquiring (n : ℕ)
  | inside
  | releasing (n : ℕ)
  deriving DecidableEq, Repr

structure LockTable (ι L : Type*) where
  mutex : L → Mutex := fun _ => {}
  phase : ι → Phase := fun _ => .acquiring 0

namespace LockTable

variable {ι L : Type*} [LinearOrder L] (jobs : ι → Job L)

/-- The locks that a job holds in a phase. -/
def held (i : ι) : Phase → List L
  | .acquiring n => (jobs i).locks.take n
  | .inside => (jobs i).locks
  | .releasing n => (jobs i).unlocks.drop n

/-- The lock that the job asks for next. -/
def awaits (s : LockTable ι L) (i : ι) : Option L :=
  match s.phase i with
  | .acquiring n => (jobs i).locks[n]?
  | _ => none

/-- The job has given everything back. -/
def Done (s : LockTable ι L) (i : ι) : Prop :=
  match s.phase i with
  | .releasing n => (jobs i).unlocks.length ≤ n
  | _ => False

/-- One if the job, which is exclusive or not, holds the lock in the phase. -/
def owns (exclusive : Bool) (l : L) (i : ι) (p : Phase) : ℕ :=
  if (jobs i).exclusive = exclusive ∧ l ∈ held jobs i p then 1 else 0

section Owns

variable {jobs} {exclusive : Bool} {l : L} {i : ι} {p p' : Phase}

theorem owns_congr (h : l ∈ held jobs i p ↔ l ∈ held jobs i p') :
    owns jobs exclusive l i p = owns jobs exclusive l i p' := by
  simp only [owns, h]

theorem owns_of_mem (h : (jobs i).exclusive = exclusive) (hl : l ∈ held jobs i p) :
    owns jobs exclusive l i p = 1 :=
  if_pos ⟨h, hl⟩

theorem owns_of_not_mem (hl : l ∉ held jobs i p) : owns jobs exclusive l i p = 0 :=
  if_neg fun hc => hl hc.2

theorem nodup_locks (jobs : ι → Job L) (i : ι) : (jobs i).locks.Nodup :=
  (jobs i).sorted.imp ne_of_lt

theorem held_acquire {n : ℕ} (h : (jobs i).locks[n]? = some l) :
    held jobs i (.acquiring (n + 1)) = held jobs i (.acquiring n) ++ [l] ∧
      l ∉ held jobs i (.acquiring n) := by
  have htake : (jobs i).locks.take (n + 1) = (jobs i).locks.take n ++ [l] := by
    rw [take_add_one, h, toList_some]
  have hnodup := (nodup_locks jobs i).sublist (take_sublist (n + 1) _)
  rw [htake] at hnodup
  refine ⟨htake, fun hmem => ?_⟩
  exact (disjoint_of_nodup_append hnodup) hmem (mem_singleton_self l)

theorem held_release {n : ℕ} (h : (jobs i).unlocks[n]? = some l) :
    held jobs i (.releasing n) = l :: held jobs i (.releasing (n + 1)) ∧
      l ∉ held jobs i (.releasing (n + 1)) := by
  obtain ⟨hn, hl⟩ := List.getElem?_eq_some_iff.mp h
  have hdrop : (jobs i).unlocks.drop n = l :: (jobs i).unlocks.drop (n + 1) := by
    rw [drop_eq_getElem_cons hn, hl]
  have hnodup : ((jobs i).unlocks.drop n).Nodup := by
    rw [(jobs i).unlocks_eq]
    exact (nodup_locks jobs i).sublist (drop_sublist n _)
  rw [hdrop] at hnodup
  exact ⟨hdrop, (nodup_cons.mp hnodup).1⟩

theorem lt_of_mem_held {s : LockTable ι L} {k : L} (hawaits : awaits jobs s i = some k)
    (hl : l ∈ held jobs i (s.phase i)) : l < k := by
  unfold awaits at hawaits
  cases hphase : s.phase i with
  | acquiring n =>
    simp only [hphase] at hawaits hl
    obtain ⟨hn, hk⟩ := List.getElem?_eq_some_iff.mp hawaits
    obtain ⟨m, hm, rfl⟩ := getElem_of_mem hl
    have hmn : m < n := by
      have := hm
      simp only [held, length_take] at this
      omega
    simp only [held, getElem_take]
    rw [← hk]
    exact pairwise_iff_getElem.mp (jobs i).sorted m n _ hn hmn
  | inside | releasing n => simp [hphase] at hawaits

theorem held_eq_nil_of_done {s : LockTable ι L} (hdone : Done jobs s i) :
    held jobs i (s.phase i) = [] := by
  unfold Done at hdone
  cases hphase : s.phase i with
  | acquiring n | inside => simp [hphase] at hdone
  | releasing n =>
    simp only [hphase] at hdone
    exact drop_eq_nil_of_le hdone

end Owns

variable [DecidableEq ι]

/-- One step of a job, `none` if it has to wait or is done. -/
def step (s : LockTable ι L) (i : ι) : Option (LockTable ι L) :=
  match s.phase i with
  | .acquiring n =>
    match (jobs i).locks[n]? with
    | some l =>
      ((s.mutex l).lock (jobs i).exclusive).map fun m =>
        { mutex := update s.mutex l m
          phase := update s.phase i (.acquiring (n + 1)) }
    | none => some { s with phase := update s.phase i .inside }
  | .inside => some { s with phase := update s.phase i (.releasing 0) }
  | .releasing n =>
    (jobs i).unlocks[n]?.map fun l =>
      { mutex := update s.mutex l ((s.mutex l).unlock (jobs i).exclusive)
        phase := update s.phase i (.releasing (n + 1)) }

section Progress

variable {jobs} {l : L} {i : ι}

theorem step_isSome_of_awaits {s : LockTable ι L} (hdone : ¬ Done jobs s i)
    (hawaits : awaits jobs s i = none) : (step jobs s i).isSome := by
  unfold step
  unfold Done at hdone
  unfold awaits at hawaits
  cases hphase : s.phase i with
  | acquiring n =>
    simp only [hphase] at hawaits ⊢
    rw [hawaits]
    rfl
  | inside => rfl
  | releasing n =>
    simp only [hphase] at hdone ⊢
    rw [isSome_map, getElem?_eq_getElem (Nat.lt_of_not_le hdone)]
    rfl

theorem step_isSome_of_free {s : LockTable ι L} (hawaits : awaits jobs s i = some l)
    (hfree : s.mutex l = {}) : (step jobs s i).isSome := by
  unfold step
  unfold awaits at hawaits
  cases hphase : s.phase i with
  | acquiring n =>
    simp only [hphase] at hawaits ⊢
    rw [hawaits]
    simp only [hfree, isSome_map]
    cases (jobs i).exclusive <;> rfl
  | inside | releasing n => simp [hphase] at hawaits

end Progress

variable [Fintype ι]

/-- The number of jobs, exclusive or not, that hold the lock. -/
def count (exclusive : Bool) (l : L) (phase : ι → Phase) : ℕ := ∑ i, owns jobs exclusive l i (phase i)

variable {jobs} {exclusive : Bool} {l : L} {i j : ι} {p : Phase} {phase : ι → Phase}

theorem count_update : count jobs exclusive l (update phase i p) +
    owns jobs exclusive l i (phase i) = count jobs exclusive l phase + owns jobs exclusive l i p := by
  have hrest : ∑ k ∈ Finset.univ.erase i, owns jobs exclusive l k (update phase i p k) =
      ∑ k ∈ Finset.univ.erase i, owns jobs exclusive l k (phase k) := by
    refine Finset.sum_congr rfl fun k hk => ?_
    rw [update_of_ne (Finset.ne_of_mem_erase hk)]
  simp only [count]
  rw [← Finset.add_sum_erase Finset.univ _ (Finset.mem_univ i), hrest,
    ← Finset.add_sum_erase Finset.univ (fun k => owns jobs exclusive l k (phase k)) (Finset.mem_univ i),
    update_self]
  omega

theorem count_update_of_owns (h : owns jobs exclusive l i p = owns jobs exclusive l i (phase i)) :
    count jobs exclusive l (update phase i p) = count jobs exclusive l phase := by
  have hupdate := @count_update ι L _ jobs _ _ exclusive l i p phase
  omega

omit [DecidableEq ι] in
theorem owns_le_count (phase : ι → Phase) : owns jobs exclusive l i (phase i) ≤ count jobs exclusive l phase :=
  Finset.single_le_sum (f := fun k => owns jobs exclusive l k (phase k)) (fun _ _ => Nat.zero_le _)
    (Finset.mem_univ i)

theorem owns_add_owns_le_count (phase : ι → Phase) (hij : i ≠ j) :
    owns jobs exclusive l i (phase i) + owns jobs exclusive l j (phase j) ≤
      count jobs exclusive l phase := by
  rw [← Finset.sum_pair (f := fun k => owns jobs exclusive l k (phase k)) hij]
  exact Finset.sum_le_sum_of_subset (Finset.subset_univ _)

/-- The mutexes are exactly what the jobs hold, and a writer holds a mutex alone. -/
structure Inv (jobs : ι → Job L) (s : LockTable ι L) : Prop where
  writer : ∀ l, (s.mutex l).writer.toNat = count jobs true l s.phase
  readers : ∀ l, (s.mutex l).readers = count jobs false l s.phase
  apart : ∀ l, (s.mutex l).writer = true → (s.mutex l).readers = 0

omit [DecidableEq ι] in
theorem inv_init (jobs : ι → Job L) : Inv jobs {} := by
  have hnone (exclusive : Bool) (l : L) : count jobs exclusive l (fun _ => .acquiring 0) = 0 :=
    Finset.sum_eq_zero fun i _ => owns_of_not_mem (by simp [held])
  exact ⟨fun l => (hnone true l).symm, fun l => (hnone false l).symm, fun _ h => by cases h⟩

namespace Inv

variable {s t : LockTable ι L}

theorem of_held (h : Inv jobs s) (hheld : held jobs i p = held jobs i (s.phase i)) :
    Inv jobs { s with phase := update s.phase i p } := by
  have hcount (exclusive : Bool) (l : L) :
      count jobs exclusive l (update s.phase i p) = count jobs exclusive l s.phase :=
    count_update_of_owns (owns_congr (by rw [hheld]))
  exact ⟨fun l => (h.writer l).trans (hcount true l).symm,
    fun l => (h.readers l).trans (hcount false l).symm, h.apart⟩

theorem count_of_ne {n : ℕ} {k : L} (hphase : s.phase i = .acquiring n)
    (hl : (jobs i).locks[n]? = some l) (hk : k ≠ l) (exclusive : Bool) :
    count jobs exclusive k (update s.phase i (.acquiring (n + 1))) =
      count jobs exclusive k s.phase := by
  refine count_update_of_owns (owns_congr ?_)
  rw [hphase, (held_acquire hl).1, mem_append, mem_singleton]
  exact or_iff_left hk

theorem count_of_ne_release {n : ℕ} {k : L} (hphase : s.phase i = .releasing n)
    (hl : (jobs i).unlocks[n]? = some l) (hk : k ≠ l) (exclusive : Bool) :
    count jobs exclusive k (update s.phase i (.releasing (n + 1))) =
      count jobs exclusive k s.phase := by
  refine count_update_of_owns (owns_congr ?_)
  rw [hphase, (held_release hl).1, mem_cons]
  exact (or_iff_right hk).symm

theorem count_acquire {n : ℕ} (hphase : s.phase i = .acquiring n)
    (hl : (jobs i).locks[n]? = some l) (exclusive : Bool) :
    count jobs exclusive l (update s.phase i (.acquiring (n + 1))) =
      count jobs exclusive l s.phase + if (jobs i).exclusive = exclusive then 1 else 0 := by
  obtain ⟨happend, hnot⟩ := held_acquire hl
  have hupdate := @count_update ι L _ jobs _ _ exclusive l i (.acquiring (n + 1)) s.phase
  rw [hphase, owns_of_not_mem hnot] at hupdate
  have hmem : l ∈ held jobs i (.acquiring (n + 1)) := by simp [happend]
  simp only [owns, hmem, and_true] at hupdate
  omega

theorem count_release {n : ℕ} (hphase : s.phase i = .releasing n)
    (hl : (jobs i).unlocks[n]? = some l) (exclusive : Bool) :
    count jobs exclusive l (update s.phase i (.releasing (n + 1))) +
      (if (jobs i).exclusive = exclusive then 1 else 0) = count jobs exclusive l s.phase := by
  obtain ⟨hcons, hnot⟩ := held_release hl
  have hupdate := @count_update ι L _ jobs _ _ exclusive l i (.releasing (n + 1)) s.phase
  rw [hphase, owns_of_not_mem hnot] at hupdate
  have hmem : l ∈ held jobs i (.releasing n) := by simp [hcons]
  simp only [owns, hmem, and_true] at hupdate
  omega

theorem acquire (h : Inv jobs s) {n : ℕ} {m : Mutex} (hphase : s.phase i = .acquiring n)
    (hl : (jobs i).locks[n]? = some l) (hm : (s.mutex l).lock (jobs i).exclusive = some m) :
    Inv jobs
      { mutex := update s.mutex l m
        phase := update s.phase i (.acquiring (n + 1)) } := by
  have hw := count_acquire hphase hl true
  have hr := count_acquire hphase hl false
  have hlw := h.writer l
  have hlr := h.readers l
  have hlock : m.writer.toNat = (s.mutex l).writer.toNat + (if (jobs i).exclusive = true then 1 else 0) ∧
      m.readers = (s.mutex l).readers + (if (jobs i).exclusive = false then 1 else 0) ∧
      (m.writer = true → m.readers = 0) := by
    cases he : (jobs i).exclusive with
    | true =>
      simp only [he, Mutex.lock] at hm
      split_ifs at hm with hfree
      cases hm
      simp [hfree.1, hfree.2]
    | false =>
      simp only [he, Mutex.lock] at hm
      split_ifs at hm with hfree
      cases hm
      simp [hfree]
  obtain ⟨hmw, hmr, hapart⟩ := hlock
  refine ⟨fun k => ?_, fun k => ?_, fun k => ?_⟩
  all_goals by_cases hk : k = l
  · subst hk
    simp only [update_self]
    omega
  · simp only [update_of_ne hk, count_of_ne hphase hl hk]
    exact h.writer k
  · subst hk
    simp only [update_self]
    omega
  · simp only [update_of_ne hk, count_of_ne hphase hl hk]
    exact h.readers k
  · subst hk
    simpa only [update_self] using hapart
  · simpa only [update_of_ne hk] using h.apart k

theorem release (h : Inv jobs s) {n : ℕ} (hphase : s.phase i = .releasing n)
    (hl : (jobs i).unlocks[n]? = some l) :
    Inv jobs
      { mutex := update s.mutex l ((s.mutex l).unlock (jobs i).exclusive)
        phase := update s.phase i (.releasing (n + 1)) } := by
  have hw := count_release hphase hl true
  have hr := count_release hphase hl false
  have hlw := h.writer l
  have hlr := h.readers l
  have hbit := Bool.toNat_le (s.mutex l).writer
  -- what the job gives back it has held, so nothing is given back twice
  have hunlock : ((s.mutex l).unlock (jobs i).exclusive).writer.toNat +
        (if (jobs i).exclusive = true then 1 else 0) = (s.mutex l).writer.toNat ∧
      ((s.mutex l).unlock (jobs i).exclusive).readers +
        (if (jobs i).exclusive = false then 1 else 0) = (s.mutex l).readers := by
    cases he : (jobs i).exclusive with
    | true =>
      simp only [he, if_true] at hw
      simp only [Mutex.unlock, if_true, Bool.toNat_false]
      refine ⟨by omega, by simp⟩
    | false =>
      simp only [he, if_true] at hr
      simp only [Mutex.unlock, if_true]
      refine ⟨by simp, by omega⟩
  have hapart := h.apart l
  refine ⟨fun k => ?_, fun k => ?_, fun k => ?_⟩
  all_goals by_cases hk : k = l
  · subst hk
    simp only [update_self]
    omega
  · simp only [update_of_ne hk, count_of_ne_release hphase hl hk]
    exact h.writer k
  · subst hk
    simp only [update_self]
    omega
  · simp only [update_of_ne hk, count_of_ne_release hphase hl hk]
    exact h.readers k
  · subst hk
    simp only [update_self]
    intro hwriter
    have hone : ((s.mutex k).unlock (jobs i).exclusive).writer.toNat = 1 := by rw [hwriter]; rfl
    have hold : (s.mutex k).writer = true := by
      cases hb : (s.mutex k).writer with
      | true => rfl
      | false =>
        rw [hb] at hunlock
        have := hunlock.1
        simp only [Bool.toNat_false] at this
        omega
    have := hapart hold
    omega
  · simpa only [update_of_ne hk] using h.apart k

theorem step (h : Inv jobs s) (ht : step jobs s i = some t) : Inv jobs t := by
  unfold LockTable.step at ht
  cases hphase : s.phase i with
  | acquiring n =>
    simp only [hphase] at ht
    cases hl : (jobs i).locks[n]? with
    | some l =>
      simp only [hl] at ht
      obtain ⟨m, hm, rfl⟩ := map_eq_some_iff.mp ht
      exact h.acquire hphase hl hm
    | none =>
      simp only [hl] at ht
      cases ht
      refine h.of_held ?_
      rw [hphase]
      exact (take_of_length_le (getElem?_eq_none_iff.mp hl)).symm
  | inside =>
    simp only [hphase] at ht
    cases ht
    refine h.of_held ?_
    rw [hphase]
    exact (jobs i).unlocks_eq
  | releasing n =>
    simp only [hphase] at ht
    obtain ⟨l, hl, rfl⟩ := map_eq_some_iff.mp ht
    exact h.release hphase hl

theorem not_exclusive (h : Inv jobs s) (hij : i ≠ j) (hi : l ∈ held jobs i (s.phase i))
    (hj : l ∈ held jobs j (s.phase j)) : (jobs i).exclusive = false := by
  by_contra he
  rw [Bool.not_eq_false] at he
  have hbit := Bool.toNat_le (s.mutex l).writer
  have hw := h.writer l
  have hone : owns jobs true l i (s.phase i) = 1 := owns_of_mem he hi
  cases hje : (jobs j).exclusive with
  | true =>
    have htwo : owns jobs true l j (s.phase j) = 1 := owns_of_mem hje hj
    have hle := @owns_add_owns_le_count ι L _ jobs _ _ true l i j s.phase hij
    omega
  | false =>
    have hreader : owns jobs false l j (s.phase j) = 1 := owns_of_mem hje hj
    have hle := @owns_le_count ι L _ jobs _ true l i s.phase
    have hle' := @owns_le_count ι L _ jobs _ false l j s.phase
    have hwriter : (s.mutex l).writer = true := by
      cases hb : (s.mutex l).writer with
      | true => rfl
      | false =>
        rw [hb, Bool.toNat_false] at hw
        omega
    have hzero := h.apart l hwriter
    have hr := h.readers l
    omega

omit [DecidableEq ι] in
theorem free_of_not_held (h : Inv jobs s) (hl : ∀ j, l ∉ held jobs j (s.phase j)) :
    s.mutex l = {} := by
  have hnone (exclusive : Bool) : count jobs exclusive l s.phase = 0 :=
    Finset.sum_eq_zero fun j _ => owns_of_not_mem (hl j)
  have hw : (s.mutex l).writer = false := by
    have hzero := h.writer l
    rw [hnone] at hzero
    exact Bool.toNat_eq_zero.mp hzero
  have hr : (s.mutex l).readers = 0 := (h.readers l).trans (hnone false)
  cases hm : s.mutex l
  rw [hm] at hw hr
  cases hw
  cases hr
  rfl

end Inv

/-- Unless all jobs are done, some job can go on: one that asks for no lock, or one that asks for a
mutex which nobody holds at all. -/
theorem Inv.exists_step {s : LockTable ι L} (h : Inv jobs s) :
    (∀ i, Done jobs s i) ∨
      ∃ i, (LockTable.step jobs s i).isSome ∧ ∀ l, awaits jobs s i = some l → s.mutex l = {} := by
  by_cases hgo : ∃ i, ¬ Done jobs s i ∧ awaits jobs s i = none
  · obtain ⟨i, hdone, hawaits⟩ := hgo
    refine .inr ⟨i, step_isSome_of_awaits hdone hawaits, fun l hl => ?_⟩
    rw [hawaits] at hl
    cases hl
  · by_cases hall : ∀ i, Done jobs s i
    · exact .inl hall
    · right
      obtain ⟨i₀, hi₀⟩ := not_forall.mp hall
      -- a job that asks for the greatest lock
      obtain ⟨i, -, hmax⟩ := @Finset.exists_max_image (WithBot L) ι _ Finset.univ (awaits jobs s)
        ⟨i₀, Finset.mem_univ i₀⟩
      have hsome : awaits jobs s i ≠ none := by
        intro hnone
        have hle := hmax i₀ (Finset.mem_univ i₀)
        rw [hnone] at hle
        exact hgo ⟨i₀, hi₀, le_bot_iff.mp hle⟩
      obtain ⟨l, hl⟩ := ne_none_iff_exists'.mp hsome
      have hfree : s.mutex l = {} := by
        refine h.free_of_not_held fun j hj => ?_
        by_cases hdone : Done jobs s j
        · rw [held_eq_nil_of_done hdone] at hj
          cases hj
        · obtain ⟨k, hk⟩ := ne_none_iff_exists'.mp fun hnone => hgo ⟨j, hdone, hnone⟩
          have hle := hmax j (Finset.mem_univ j)
          rw [hk, hl] at hle
          exact absurd (lt_of_mem_held hk hj) (not_lt.mpr (WithBot.coe_le_coe.mp hle))
      refine ⟨i, step_isSome_of_free hl hfree, fun k hk => ?_⟩
      rw [hl] at hk
      cases hk
      exact hfree

end LockTable

end Goblin.Lib
