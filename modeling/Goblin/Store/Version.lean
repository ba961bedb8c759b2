import Goblin.Lib.Run
import Goblin.Model.Types

/-! `VersionStore`: allocation of versions and the newest version known to be committed. -/
namespace Goblin.Store

open Model List

structure VersionStore where
  mNextVersion : ℕ := 0
  mMaxVersion : ℕ := 0
  deriving DecidableEq, Repr

namespace VersionStore

/-- The version after the given one, as a 64 bit value. -/
def successor (version : ℕ) : ℕ := (version + 1) % 2 ^ 64

/-- The version handed to the callback, and the store after the call. -/
def allocateNextVersion (v : VersionStore) (expectedVersion : ℕ) : ℕ × VersionStore :=
  if expectedVersion = kInvalidVersion then
    (v.mNextVersion, { v with mNextVersion := successor v.mNextVersion })
  else if v.mNextVersion ≥ expectedVersion then (expectedVersion, v)
  else (expectedVersion, { v with mNextVersion := expectedVersion })

/-- A 64 bit subtraction, which wraps when nothing was ever allocated or recovered. -/
def getMaxAllocatedVersion (v : VersionStore) : ℕ :=
  if v.mNextVersion = 0 then 2 ^ 64 - 1 else v.mNextVersion - 1

def getCurMaxVersion (v : VersionStore) : ℕ := v.mMaxVersion

/-- The first store of `recoverMaxVersion`. -/
def storeMaxVersion (v : VersionStore) (version : ℕ) : VersionStore := { v with mMaxVersion := version }

/-- The second store of `recoverMaxVersion`, which loads `mMaxVersion` again. -/
def storeNextVersion (v : VersionStore) : VersionStore := { v with mNextVersion := successor v.mMaxVersion }

/-- No mutex is taken; this is the call that nothing interleaves with. -/
def recoverMaxVersion (v : VersionStore) (version : ℕ) : VersionStore := (v.storeMaxVersion version).storeNextVersion

theorem successor_of_ne {version : ℕ} (hlt : version < 2 ^ 64) (hne : version ≠ 2 ^ 64 - 1) :
    successor version = version + 1 := Nat.mod_eq_of_lt (by omega)

theorem successor_lt (version : ℕ) : successor version < 2 ^ 64 := Nat.mod_lt _ (by decide)

theorem allocateNextVersion_fresh (v : VersionStore) :
    v.allocateNextVersion kInvalidVersion = (v.mNextVersion, { v with mNextVersion := successor v.mNextVersion }) := rfl

theorem allocateNextVersion_expected (v : VersionStore) {version : ℕ} (h : version ≠ kInvalidVersion) :
    v.allocateNextVersion version = (version, { v with mNextVersion := max v.mNextVersion version }) := by
  unfold allocateNextVersion
  rw [if_neg h]
  split_ifs with hge
  · rw [max_eq_left hge]
  · rw [max_eq_right (Nat.le_of_lt (Nat.lt_of_not_le hge))]

end VersionStore

section Allocations

open Lib VersionStore

inductive VersionCall
  | allocateNextVersion (expectedVersion : Fin (2 ^ 64))
  /-- to the largest version handed out so far -/
  | recoverMaxVersion
  deriving DecidableEq, Repr

/-- A store with the versions it has handed out, the last one first, and whether each was a fresh one.
`reached` says that since the last recovery some expected version was not below the counter. -/
structure Allocations where
  store : VersionStore := {}
  returned : List (ℕ × Bool) := []
  reached : Bool := false
  deriving DecidableEq, Repr

namespace Allocations

def maxReturned (a : Allocations) : ℕ := (a.returned.map Prod.fst).foldr max kInvalidVersion

def step (a : Allocations) : VersionCall → Option Allocations
  | .allocateNextVersion expectedVersion =>
    let (version, store) := a.store.allocateNextVersion expectedVersion
    let isFresh := decide (expectedVersion.val = kInvalidVersion)
    some ⟨store, (version, isFresh) :: a.returned,
      a.reached || (!isFresh && decide (a.store.mNextVersion ≤ expectedVersion))⟩
  | .recoverMaxVersion => some { a with store := a.store.recoverMaxVersion a.maxReturned, reached := false }

/-- A fresh version is larger than every version returned before it. -/
def Grows (a : Allocations) : Prop :=
  a.returned.Pairwise fun later earlier => later.2 = true → earlier.1 < later.1

/-- The largest version there is has been handed out. -/
def Exhausted (a : Allocations) : Prop := ∃ r ∈ a.returned, r.1 = 2 ^ 64 - 1

/-- No version is asked for without an expected one between an expected version that is not below the counter
and the next recovery, and none once the largest version there is has been handed out. -/
def Recovered (a : Allocations) : VersionCall → Prop
  | .allocateNextVersion expectedVersion =>
    expectedVersion.val = kInvalidVersion → a.reached = false ∧ ¬ a.Exhausted
  | .recoverMaxVersion => True

/-- Where the counter is, relative to what was returned. -/
structure Counts (a : Allocations) : Prop where
  le : ∀ r ∈ a.returned, r.1 ≤ a.store.mNextVersion
  lt : a.reached = false → ∀ r ∈ a.returned, r.1 < a.store.mNextVersion
  mem : a.reached = true → ∃ r ∈ a.returned, r.1 = a.store.mNextVersion

/-- The counter may have wrapped once the versions are exhausted. -/
structure Inv (a : Allocations) : Prop where
  next : a.store.mNextVersion < 2 ^ 64
  bound : ∀ r ∈ a.returned, r.1 < 2 ^ 64
  counts : ¬ a.Exhausted → a.Counts
  grows : a.Grows

variable {a a' : Allocations} {call : VersionCall}

theorem le_foldr_max {l : List ℕ} {n : ℕ} (h : n ∈ l) : n ≤ l.foldr max kInvalidVersion := by
  induction l with
  | nil => cases h
  | cons m l ih =>
    rw [foldr_cons]
    rcases mem_cons.mp h with rfl | h
    · exact le_max_left _ _
    · exact (ih h).trans (le_max_right _ _)

theorem foldr_max_mem {l : List ℕ} (h : l.foldr max kInvalidVersion ≠ kInvalidVersion) :
    l.foldr max kInvalidVersion ∈ l := by
  induction l with
  | nil => exact absurd rfl h
  | cons m l ih =>
    rw [foldr_cons] at h ⊢
    rcases max_cases m (l.foldr max kInvalidVersion) with ⟨heq, -⟩ | ⟨heq, -⟩
    · rw [heq]
      exact mem_cons_self
    · rw [heq] at h ⊢
      exact mem_cons_of_mem _ (ih h)

theorem not_exhausted_of_cons {r : ℕ × Bool} {store : VersionStore} {reached : Bool}
    (h : ¬ Exhausted ⟨store, r :: a.returned, reached⟩) : r.1 ≠ 2 ^ 64 - 1 ∧ ¬ a.Exhausted :=
  ⟨fun heq => h ⟨r, mem_cons_self, heq⟩, fun ⟨r', hr', heq⟩ => h ⟨r', mem_cons_of_mem _ hr', heq⟩⟩

theorem Inv.fresh (h : Inv a) (hreached : a.reached = false) (hleft : ¬ a.Exhausted) :
    Inv ⟨{ a.store with mNextVersion := successor a.store.mNextVersion },
      (a.store.mNextVersion, true) :: a.returned, a.reached⟩ := by
  have hbelow := (h.counts hleft).lt hreached
  refine ⟨successor_lt _, fun r hr => ?_, fun hleft' => ?_, ?_⟩
  · rcases mem_cons.mp hr with rfl | hr
    · exact h.next
    · exact h.bound r hr
  · have hsucc := successor_of_ne h.next (not_exhausted_of_cons hleft').1
    have hlt (r : ℕ × Bool) (hr : r ∈ (a.store.mNextVersion, true) :: a.returned) :
        r.1 < successor a.store.mNextVersion := by
      rw [hsucc]
      rcases mem_cons.mp hr with rfl | hr
      · exact Nat.lt_succ_self _
      · exact Nat.lt_succ_of_lt (hbelow r hr)
    exact ⟨fun r hr => Nat.le_of_lt (hlt r hr), fun _ => hlt, fun hr => by simp [hreached] at hr⟩
  · exact pairwise_cons.mpr ⟨fun r hr _ => hbelow r hr, h.grows⟩

theorem Counts.expected (h : Counts a) (version : ℕ) :
    Counts ⟨{ a.store with mNextVersion := max a.store.mNextVersion version }, (version, false) :: a.returned,
      a.reached || decide (a.store.mNextVersion ≤ version)⟩ := by
  refine ⟨fun r hr => ?_, fun hreached r hr => ?_, fun hreached => ?_⟩
  · rcases mem_cons.mp hr with rfl | hr
    · exact le_max_right _ _
    · exact (h.le r hr).trans (le_max_left _ _)
  · simp only [Bool.or_eq_false_iff, decide_eq_false_iff_not] at hreached
    rcases mem_cons.mp hr with rfl | hr
    · exact Nat.lt_of_lt_of_le (Nat.lt_of_not_le hreached.2) (le_max_left _ _)
    · exact Nat.lt_of_lt_of_le (h.lt hreached.1 r hr) (le_max_left _ _)
  · by_cases hle : a.store.mNextVersion ≤ version
    · exact ⟨_, mem_cons_self, (max_eq_right hle).symm⟩
    · obtain ⟨r, hr, heq⟩ := h.mem (by simpa [hle] using hreached)
      refine ⟨r, mem_cons_of_mem _ hr, heq.trans (max_eq_left ?_).symm⟩
      exact Nat.le_of_lt (Nat.lt_of_not_le hle)

theorem Inv.expected (h : Inv a) {version : ℕ} (hversion : version < 2 ^ 64) :
    Inv ⟨{ a.store with mNextVersion := max a.store.mNextVersion version }, (version, false) :: a.returned,
      a.reached || decide (a.store.mNextVersion ≤ version)⟩ := by
  refine ⟨max_lt h.next hversion, fun r hr => ?_, fun hleft => ?_, pairwise_cons.mpr ⟨nofun, h.grows⟩⟩
  · rcases mem_cons.mp hr with rfl | hr
    · exact hversion
    · exact h.bound r hr
  · exact (h.counts (not_exhausted_of_cons hleft).2).expected version

theorem Inv.recover (h : Inv a) :
    Inv { a with store := a.store.recoverMaxVersion a.maxReturned, reached := false } := by
  refine ⟨successor_lt _, h.bound, fun hleft => ?_, h.grows⟩
  have hmax : a.maxReturned < 2 ^ 64 ∧ a.maxReturned ≠ 2 ^ 64 - 1 := by
    by_cases hzero : a.maxReturned = kInvalidVersion
    · rw [hzero]
      decide
    · obtain ⟨r, hr, heq⟩ := mem_map.mp (foldr_max_mem hzero)
      exact ⟨lt_of_eq_of_lt heq.symm (h.bound r hr), fun hlast => hleft ⟨r, hr, heq.trans hlast⟩⟩
  have hlt (r : ℕ × Bool) (hr : r ∈ a.returned) : r.1 < successor a.maxReturned := by
    rw [successor_of_ne hmax.1 hmax.2]
    exact Nat.lt_succ_of_le (le_foldr_max (mem_map_of_mem hr))
  exact ⟨fun r hr => Nat.le_of_lt (hlt r hr), fun _ => hlt, nofun⟩

theorem Inv.step (h : Inv a) (hstep : Allocations.step a call = some a') (hG : Recovered a call) : Inv a' := by
  cases call with
  | recoverMaxVersion =>
    cases hstep
    exact h.recover
  | allocateNextVersion version =>
    by_cases hv : version.val = kInvalidVersion
    · obtain ⟨hreached, hleft⟩ := hG hv
      simp only [Allocations.step, hv, VersionStore.allocateNextVersion_fresh, decide_true, Bool.not_true,
        Bool.false_and, Bool.or_false, Option.some.injEq] at hstep
      exact hstep ▸ h.fresh hreached hleft
    · simp only [Allocations.step, VersionStore.allocateNextVersion_expected _ hv, hv, decide_false, Bool.not_false,
        Bool.true_and, Option.some.injEq] at hstep
      exact hstep ▸ h.expected version.isLt

/-- Where the counter itself or the largest version was returned before, a fresh version is not larger. -/
theorem Inv.recovered_of_grows (h : Inv a) (hstep : Allocations.step a call = some a') (hgrows : a'.Grows) :
    Recovered a call := by
  cases call with
  | recoverMaxVersion => trivial
  | allocateNextVersion version =>
    intro hv
    have hlarger (r : ℕ × Bool) (hr : r ∈ a.returned) : r.1 < a.store.mNextVersion := by
      simp only [Allocations.step, hv, VersionStore.allocateNextVersion_fresh, decide_true, Option.some.injEq] at hstep
      subst hstep
      exact (pairwise_cons.mp hgrows).1 r hr rfl
    have hleft : ¬ a.Exhausted := by
      rintro ⟨r, hr, heq⟩
      have hlt := hlarger r hr
      have hnext := h.next
      omega
    refine ⟨?_, hleft⟩
    by_contra hreached
    obtain ⟨r, hr, heq⟩ := (h.counts hleft).mem (by simpa using hreached)
    exact absurd heq (hlarger r hr).ne

theorem Inv.initial : Inv {} := ⟨by decide, nofun, fun _ => ⟨nofun, fun _ => nofun, nofun⟩, List.Pairwise.nil⟩

/-- Fresh versions are never reused exactly in the call sequences that recover after every expected version
that is not below the counter, before a fresh one is asked for, and that ask for no fresh one after the largest. -/
theorem fresh_versions_grow_iff (calls : List VersionCall) :
    Meets step Recovered {} calls ↔
      ∀ made a, made <+: calls → exec step {} made = some a → a.Grows :=
  meets_iff_forall_reached (fun _ h => h.grows) (fun _ _ _ h hs hG => h.step hs hG)
    (fun _ _ _ h hs hP => h.recovered_of_grows hs hP) Inv.initial calls

/-- An import just above the counter, and the fresh version after it; and the fresh version after the largest. -/
theorem import_version_reused :
    (∃ a, exec step ({} : Allocations)
        [.recoverMaxVersion, .allocateNextVersion 0, .allocateNextVersion 2, .allocateNextVersion 0] = some a ∧
      a.returned = [(2, true), (2, false), (1, true)] ∧ ¬ a.Grows) ∧
    ∃ a, exec step ({} : Allocations) [.allocateNextVersion (Fin.last _), .recoverMaxVersion, .allocateNextVersion 0] =
        some a ∧
      a.returned = [(0, true), (2 ^ 64 - 1, false)] ∧ ¬ a.Grows :=
  ⟨⟨_, rfl, rfl, fun h => absurd ((pairwise_cons.mp h).1 _ mem_cons_self rfl) (Nat.lt_irrefl 2)⟩,
    _, rfl, rfl, fun h => absurd ((pairwise_cons.mp h).1 _ mem_cons_self rfl) (Nat.not_lt_zero _)⟩

end Allocations

end Allocations

end Goblin.Store
