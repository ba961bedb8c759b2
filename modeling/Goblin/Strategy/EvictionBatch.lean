import Goblin.Strategy.CacheEviction

/-! Which keys a write moves to the batch of keys to evict, and how many. -/
namespace Goblin.Strategy.LRUEviction

open Model Lib List

/-- The total once the keys are evicted. -/
def usageAfter (s : LRUEviction) (keys : List KeyType) : UInt64 :=
  keys.foldl (fun usage key => usage - s.sizeOf key) s.mCurUsage

def batchAfter (s : LRUEviction) (keys : List KeyType) : Finset KeyType :=
  keys.foldl (fun batch key => Insert.insert key batch) s.mPendingEvictBatch

/-- The batch has no room left. -/
def FullAfter (cfg : LRUConfig) (s : LRUEviction) (keys : List KeyType) : Prop :=
  cfg.mMaxBatch.toNat ≤ (s.batchAfter keys).card

instance (cfg : LRUConfig) (s : LRUEviction) (keys : List KeyType) : Decidable (FullAfter cfg s keys) :=
  inferInstanceAs (Decidable (_ ≤ _))

/-- The keys of the cache, the one that was not used for the longest time first. -/
def leastRecent (calls : List Call) (s : LRUEviction) : List KeyType :=
  (byLastUse calls).filter fun key => (s.mCacheMap key).isSome

/-- What moves to the batch is the beginning of the list, each key of it is needed, and it is enough: the total
is small, or the batch is full, or there is nothing left. -/
structure MovesLeast (cfg : LRUConfig) (s : LRUEviction) (keys moved : List KeyType) : Prop where
  oldest : moved = keys.take moved.length
  needed : ∀ j < moved.length, cfg.mOptimal < s.usageAfter (keys.take j) ∧ ¬ FullAfter cfg s (keys.take j)
  enough : s.usageAfter moved ≤ cfg.mOptimal ∨ FullAfter cfg s moved ∨ moved = keys

/-- What the loop does: it goes on until nothing is left of the total. -/
structure MovesAll (cfg : LRUConfig) (s : LRUEviction) (keys moved : List KeyType) : Prop where
  oldest : moved = keys.take moved.length
  needed : ∀ j < moved.length, 0 < s.usageAfter (keys.take j) ∧ ¬ FullAfter cfg s (keys.take j)
  enough : s.usageAfter moved = 0 ∨ FullAfter cfg s moved ∨ moved = keys

section Loop

variable {cfg : LRUConfig} {calls : List Call} {s : LRUEviction} {key : KeyType} {keys : List KeyType}

theorem usageAfter_evictBack (hkeys : key ∉ keys) :
    (s.evictBack key).usageAfter keys = s.usageAfter (key :: keys) := by
  have hgen (usage : UInt64) (ks : List KeyType) (hks : key ∉ ks) :
      ks.foldl (fun usage k => usage - (s.evictBack key).sizeOf k) usage =
        ks.foldl (fun usage k => usage - s.sizeOf k) usage := by
    induction ks generalizing usage with
    | nil => rfl
    | cons k ks ih =>
      rw [mem_cons, not_or] at hks
      have hsize : (s.evictBack key).sizeOf k = s.sizeOf k := by
        simp only [sizeOf, evictBack_mCacheMap_of_ne s (Ne.symm hks.1)]
      rw [foldl_cons, foldl_cons, hsize]
      exact ih _ hks.2
  exact hgen _ keys hkeys

theorem eq_zero_of_not_pos {a : UInt64} (h : ¬ a > 0) : a = 0 := by
  have hle : a.toNat ≤ (0 : UInt64).toNat := UInt64.le_iff_toNat_le.mp (UInt64.not_lt.mp h)
  exact UInt64.toNat_inj.mp (Nat.le_zero.mp hle)

/-- Induction on the fuel, which is at least the number of keys; the list gets shorter at its old end. -/
theorem evictLoop_movesAll (h : Linked calls s) (fuel : ℕ) (hfuel : s.mUsed.length ≤ fuel) :
    MovesAll cfg s (s.leastRecent calls) (evictLoop cfg fuel s).1 := by
  have horder : (s.mUsed.map Prod.snd).reverse = s.leastRecent calls := h.order
  induction fuel generalizing s with
  | zero =>
    have hnil : s.mUsed = [] := length_eq_zero_iff.mp (Nat.le_zero.mp hfuel)
    rw [hnil] at horder
    exact ⟨by simp [evictLoop], fun j hj => absurd hj (by simp [evictLoop]), .inr (.inr horder)⟩
  | succ fuel ih =>
    unfold evictLoop
    by_cases hgo : s.mCurUsage > 0 ∧ s.mPendingEvictBatch.card < cfg.mMaxBatch.toNat
    · rw [if_pos hgo]
      cases hlast : s.mUsed.getLast? with
      | none =>
        rw [getLast?_eq_none_iff.mp hlast] at horder
        exact ⟨rfl, fun j hj => absurd hj (Nat.not_lt_zero j), .inr (.inr horder)⟩
      | some n =>
        obtain ⟨it, key⟩ := n
        obtain ⟨used, hused⟩ : ∃ used, s.mUsed = used ++ [(it, key)] := getLast?_eq_some_iff.mp hlast
        have hevict : (s.evictBack key).mUsed = used := by
          change s.mUsed.dropLast = used
          rw [hused, dropLast_concat]
        have hlinked := h.evictBack hlast
        have horder' : (used.map Prod.snd).reverse = (s.evictBack key).leastRecent calls := by
          rw [← hevict]
          exact hlinked.order
        have hcons : s.leastRecent calls = key :: (s.evictBack key).leastRecent calls := by
          rw [← horder, hused, ← horder']
          simp
        have hnot : key ∉ (s.evictBack key).leastRecent calls := by
          simp [leastRecent]
        have hlength : (s.evictBack key).mUsed.length ≤ fuel := by
          have hs : s.mUsed.length = used.length + 1 := by rw [hused, length_append, length_singleton]
          rw [hevict]
          omega
        obtain ⟨holdest, hneeded, henough⟩ := ih hlinked hlength (by rw [hevict]; exact horder')
        have hnot' (j : ℕ) : key ∉ ((s.evictBack key).leastRecent calls).take j :=
          fun hmem => hnot (mem_of_mem_take hmem)
        dsimp only
        refine ⟨?_, fun j hj => ?_, ?_⟩
        · rw [hcons, length_cons, take_succ_cons, ← holdest]
        · cases j with
          | zero => exact ⟨hgo.1, Nat.not_le.mpr hgo.2⟩
          | succ j =>
            have hj' := hneeded j (Nat.lt_of_succ_lt_succ hj)
            rw [usageAfter_evictBack (hnot' j)] at hj'
            rw [hcons, take_succ_cons]
            exact hj'
        · rw [holdest] at henough
          rw [usageAfter_evictBack (hnot' _)] at henough
          rw [hcons, holdest]
          exact henough.imp_right (Or.imp_right (congrArg _))
    · rw [if_neg hgo]
      refine ⟨rfl, fun j hj => absurd hj (Nat.not_lt_zero j), ?_⟩
      by_cases hzero : s.mCurUsage > 0
      · exact .inr (.inl (Nat.le_of_not_lt fun hlt => hgo ⟨hzero, hlt⟩))
      · exact .inl (eq_zero_of_not_pos hzero)

end Loop

/-- If the `j` oldest keys, and no fewer, are enough, then there is nothing to evict, or they take the whole total
or fill the batch. -/
def EndsAtOptimal (cfg : LRUConfig) (s : LRUEviction) (keys : List KeyType) : Prop :=
  ∀ j < keys.length, s.usageAfter (keys.take j) ≤ cfg.mOptimal →
    (∀ i < j, cfg.mOptimal < s.usageAfter (keys.take i) ∧ ¬ FullAfter cfg s (keys.take i)) →
    j = 0 ∨ s.usageAfter (keys.take j) = 0 ∨ FullAfter cfg s (keys.take j)

section Least

variable {cfg : LRUConfig} {s : LRUEviction} {keys moved : List KeyType}

theorem movesLeast_nil (h : s.mCurUsage ≤ cfg.mOptimal) : MovesLeast cfg s keys [] :=
  ⟨rfl, fun j hj => absurd hj (Nat.not_lt_zero j), .inl h⟩

theorem endsAtOptimal_of_le (h : s.mCurUsage ≤ cfg.mOptimal) : EndsAtOptimal cfg s keys := by
  intro j _ _ hbefore
  by_cases hj : j = 0
  · exact .inl hj
  · have hfirst := (hbefore 0 (Nat.pos_of_ne_zero hj)).1
    exact absurd h (UInt64.not_le.mpr hfirst)

/-- The loop that goes on until nothing is left takes the least number of keys exactly if it cannot go on at
the point where the total is small enough. -/
theorem movesLeast_iff_of_movesAll (h : MovesAll cfg s keys moved) (hlarge : s.mCurUsage > cfg.mOptimal) :
    MovesLeast cfg s keys moved ↔ EndsAtOptimal cfg s keys := by
  have hall (hmoved : moved.length < keys.length) : moved ≠ keys := by
    rintro rfl
    exact absurd hmoved (Nat.lt_irrefl _)
  constructor
  · intro hleast j hj hsmall hbefore
    rcases Nat.lt_trichotomy j moved.length with hlt | heq | hgt
    · exact absurd hsmall (UInt64.not_le.mpr (hleast.needed j hlt).1)
    · have henough := h.enough
      rw [h.oldest, ← heq] at henough
      rcases henough with hzero | hfull | hkeys
      · exact .inr (.inl hzero)
      · exact .inr (.inr hfull)
      · refine absurd (h.oldest.trans ?_) (hall (heq ▸ hj))
        rw [← heq]
        exact hkeys
    · obtain ⟨hmore, hroom⟩ := hbefore moved.length hgt
      rw [← h.oldest] at hmore hroom
      rcases hleast.enough with hless | hfull | hkeys
      · exact absurd hless (UInt64.not_le.mpr hmore)
      · exact absurd hfull hroom
      · exact absurd hkeys (hall (Nat.lt_trans hgt hj))
  · intro hends
    have hlength : moved.length ≤ keys.length := by
      rw [h.oldest, length_take]
      exact Nat.min_le_right _ _
    -- strong induction: a first key that is not needed would have ended the loop
    have hneeded : ∀ j, j < moved.length → cfg.mOptimal < s.usageAfter (keys.take j) := by
      intro j
      induction j using Nat.strong_induction_on with
      | _ j ih =>
        intro hj
        by_contra hsmall
        obtain ⟨hpos, hroom⟩ := h.needed j hj
        have hbefore : ∀ i < j, cfg.mOptimal < s.usageAfter (keys.take i) ∧ ¬ FullAfter cfg s (keys.take i) :=
          fun i hi => ⟨ih i hi (Nat.lt_trans hi hj), (h.needed i (Nat.lt_trans hi hj)).2⟩
        rcases hends j (Nat.lt_of_lt_of_le hj hlength) (UInt64.not_lt.mp hsmall) hbefore with rfl | hzero | hfull
        · exact hsmall hlarge
        · rw [hzero] at hpos
          exact absurd hpos (by decide)
        · exact hroom hfull
    refine ⟨h.oldest, fun j hj => ⟨hneeded j hj, (h.needed j hj).2⟩, ?_⟩
    rcases h.enough with hzero | hrest
    · left
      rw [hzero]
      exact UInt64.le_iff_toNat_le.mpr (Nat.zero_le _)
    · exact .inr hrest

end Least

/-- After any history, a write moves the least recently used keys, and it moves no more of them than needed
exactly if the loop cannot go on once the total is at the optimum. -/
theorem lru_moves_least_iff (cfg : LRUConfig) {calls : List Call} {s : LRUEviction}
    (hrun : exec (step cfg) {} calls = some s) (key : KeyType) (valueSize : UInt64) (lastAppliedVersion : ℕ) :
    ∃ t, s.insert key valueSize = some t ∧
      (MovesLeast cfg t (t.leastRecent (calls ++ [.write key valueSize lastAppliedVersion])) (t.moved cfg) ↔
        EndsAtOptimal cfg t (t.leastRecent (calls ++ [.write key valueSize lastAppliedVersion]))) := by
  obtain ⟨s', hs', hlinked⟩ := linked_start.exec cfg calls
  rw [hrun] at hs'
  cases hs'
  refine ⟨s.inserted key valueSize, hlinked.insert_eq key valueSize, ?_⟩
  have hinserted : Linked (calls ++ [.write key valueSize lastAppliedVersion]) (s.inserted key valueSize) :=
    hlinked.inserted key valueSize lastAppliedVersion
  unfold moved
  by_cases hlarge : (s.inserted key valueSize).mCurUsage > cfg.mOptimal
  · rw [if_pos hlarge]
    exact movesLeast_iff_of_movesAll (evictLoop_movesAll hinserted _ le_rfl) hlarge
  · have hle := UInt64.not_lt.mp hlarge
    rw [if_neg hlarge]
    exact ⟨fun _ => endsAtOptimal_of_le hle, fun _ => movesLeast_nil hle⟩

/-- The batch is full with one key. -/
def oneByOne : LRUConfig := { mOptimal := 10, mMinBatch := 1, mMaxBatch := 1 }

theorem oneByOne_moves_least :
    ∃ s t, exec (step oneByOne) {} [.write "a" 6 0] = some s ∧ s.insert "b" 6 = some t ∧
      MovesLeast oneByOne t (t.leastRecent [.write "a" 6 0, .write "b" 6 0]) (t.moved oneByOne) := by
  have hrun : exec (step oneByOne) {} [.write "a" 6 0] = some _ := rfl
  obtain ⟨t, ht, hiff⟩ := lru_moves_least_iff oneByOne hrun "b" 6 0
  refine ⟨_, t, hrun, ht, hiff.mpr fun j hj _ hbefore => ?_⟩
  cases ht
  have hj : j < 2 := hj
  interval_cases j
  · exact .inl rfl
  · exact .inr (.inr (by decide +kernel))

/-- Two keys of six bytes and an optimum of ten: one of them is enough, and both are moved. -/
theorem lru_moves_too_many :
    ∃ s t, exec (step smallCache) {} [.write "a" 6 0] = some s ∧ s.insert "b" 6 = some t ∧
      t.moved smallCache = ["a", "b"] ∧ t.usageAfter ["a"] = 6 ∧ ¬ FullAfter smallCache t ["a"] ∧
      ¬ MovesLeast smallCache t (t.leastRecent [.write "a" 6 0, .write "b" 6 0]) (t.moved smallCache) := by
  refine ⟨_, _, rfl, rfl, by decide +kernel, by decide +kernel, by decide +kernel, fun hleast => ?_⟩
  exact absurd (hleast.needed 1 (by decide +kernel)).1 (by decide +kernel)

end Goblin.Strategy.LRUEviction
