import Goblin.Lib.OrderedLocks
import Goblin.Model.Types

/-! `WSConcurInMemoryKVStore::lock` and `unlock`: the mutexes of the segments of each working set. -/
namespace Goblin.Store

open Model Lib List

abbrev WSName := String

/-- A segment of a working set; working sets come first in the order. -/
abbrev SegmentId := WSName ×ₗ ℕ

namespace ConcurInMemoryKVStore

def kConcurLevel : ℕ := 4096

/-- The upper twelve bits of the hash. -/
def calculateSegmentIndex (mHashFunc : KeyType → UInt64) (key : KeyType) : ℕ :=
  ((mHashFunc key >>> 52) &&& 4095).toNat

/-- The loop over `indexFlags`, in ascending order of the segments. -/
def segments (mHashFunc : KeyType → UInt64) (targetKeys : List KeyType) : List ℕ :=
  (List.range kConcurLevel).filter fun i =>
    targetKeys.any fun key => calculateSegmentIndex mHashFunc key = i

def lock (mHashFunc : KeyType → UInt64) (targetKeys : List KeyType) : List ℕ :=
  segments mHashFunc targetKeys

def unlock (mHashFunc : KeyType → UInt64) (targetKeys : List KeyType) : List ℕ :=
  segments mHashFunc targetKeys

variable {mHashFunc : KeyType → UInt64} {targetKeys : List KeyType}

theorem calculateSegmentIndex_lt (key : KeyType) :
    calculateSegmentIndex mHashFunc key < kConcurLevel := by
  have hle : (mHashFunc key >>> 52).toNat &&& 4095 ≤ 4095 := Nat.and_le_right
  rw [calculateSegmentIndex, UInt64.toNat_and]
  exact Nat.lt_succ_of_le hle

theorem sorted_segments : (segments mHashFunc targetKeys).Pairwise (· < ·) :=
  pairwise_lt_range.filter _

theorem mem_segments {key : KeyType} (h : key ∈ targetKeys) :
    calculateSegmentIndex mHashFunc key ∈ segments mHashFunc targetKeys := by
  refine mem_filter.mpr ⟨mem_range.mpr (calculateSegmentIndex_lt key), ?_⟩
  exact any_eq_true.mpr ⟨key, h, by simp⟩

end ConcurInMemoryKVStore

namespace WSConcurInMemoryKVStore

/-- An entry of `ws2Keys`, a map in the order of its names. -/
def insertKey (name : WSName) (key : KeyType) :
    List (WSName × List KeyType) → List (WSName × List KeyType)
  | [] => [(name, [key])]
  | (n, keys) :: rest =>
    if name = n then (n, keys ++ [key]) :: rest
    else if name < n then (name, [key]) :: (n, keys) :: rest
    else (n, keys) :: insertKey name key rest

def ws2Keys (wsLookup : KeyType → WSName) (targetKeys : List KeyType) : List (WSName × List KeyType) :=
  targetKeys.foldl (fun m key => insertKey (wsLookup key) key m) []

section Map

variable {name : WSName} {key : KeyType} {m : List (WSName × List KeyType)}

theorem fst_mem_insertKey {n : WSName} (h : n ∈ (insertKey name key m).map Prod.fst) :
    n = name ∨ n ∈ m.map Prod.fst := by
  induction m with
  | nil => exact .inl (mem_singleton.mp h)
  | cons e rest ih =>
    obtain ⟨n', keys⟩ := e
    unfold insertKey at h
    split_ifs at h
    · exact .inr h
    · rcases mem_cons.mp h with h | h
      · exact .inl h
      · exact .inr h
    · rcases mem_cons.mp h with h | h
      · exact .inr (h ▸ mem_cons_self)
      · exact (ih h).imp_right (mem_cons_of_mem _)

theorem sorted_insertKey (h : (m.map Prod.fst).Pairwise (· < ·)) :
    ((insertKey name key m).map Prod.fst).Pairwise (· < ·) := by
  induction m with
  | nil => exact pairwise_singleton _ _
  | cons e rest ih =>
    obtain ⟨n, keys⟩ := e
    obtain ⟨hfirst, hrest⟩ := pairwise_cons.mp h
    unfold insertKey
    split_ifs with heq hlt
    · exact h
    · refine pairwise_cons.mpr ⟨fun n' hn' => ?_, h⟩
      rcases mem_cons.mp hn' with rfl | hn'
      · exact hlt
      · exact lt_trans hlt (hfirst n' hn')
    · refine pairwise_cons.mpr ⟨fun n' hn' => ?_, ih hrest⟩
      rcases fst_mem_insertKey hn' with rfl | hn'
      · exact lt_of_le_of_ne (not_lt.mp hlt) (Ne.symm heq)
      · exact hfirst n' hn'

theorem mem_insertKey_self : ∃ keys, (name, keys) ∈ insertKey name key m ∧ key ∈ keys := by
  induction m with
  | nil => exact ⟨[key], mem_singleton_self _, mem_singleton_self _⟩
  | cons e rest ih =>
    obtain ⟨n, keys⟩ := e
    unfold insertKey
    split_ifs with heq hlt
    · subst heq
      exact ⟨keys ++ [key], mem_cons_self, by simp⟩
    · exact ⟨[key], mem_cons_self, mem_singleton_self _⟩
    · obtain ⟨keys', hkeys, hkey⟩ := ih
      exact ⟨keys', mem_cons_of_mem _ hkeys, hkey⟩

theorem mem_insertKey_of_mem {n : WSName} {keys : List KeyType} {k : KeyType} (h : (n, keys) ∈ m)
    (hk : k ∈ keys) : ∃ keys', (n, keys') ∈ insertKey name key m ∧ k ∈ keys' := by
  induction m with
  | nil => cases h
  | cons e rest ih =>
    obtain ⟨n', keys'⟩ := e
    unfold insertKey
    split_ifs with heq hlt
    · rcases mem_cons.mp h with he | h
      · cases he
        exact ⟨keys ++ [key], mem_cons_self, mem_append_left _ hk⟩
      · exact ⟨keys, mem_cons_of_mem _ h, hk⟩
    · exact ⟨keys, mem_cons_of_mem _ h, hk⟩
    · rcases mem_cons.mp h with he | h
      · cases he
        exact ⟨keys, mem_cons_self, hk⟩
      · obtain ⟨keys'', hkeys, hkey⟩ := ih h
        exact ⟨keys'', mem_cons_of_mem _ hkeys, hkey⟩

end Map

variable {wsLookup : KeyType → WSName} {mHashFunc : KeyType → UInt64} {targetKeys : List KeyType}

theorem sorted_ws2Keys : ((ws2Keys wsLookup targetKeys).map Prod.fst).Pairwise (· < ·) := by
  have hfold (m : List (WSName × List KeyType)) (h : (m.map Prod.fst).Pairwise (· < ·)) :
      ((targetKeys.foldl (fun m key => insertKey (wsLookup key) key m) m).map Prod.fst).Pairwise
        (· < ·) := by
    induction targetKeys generalizing m with
    | nil => exact h
    | cons key keys ih => exact ih _ (sorted_insertKey h)
  exact hfold [] List.Pairwise.nil

theorem mem_ws2Keys {key : KeyType} (h : key ∈ targetKeys) :
    ∃ keys, (wsLookup key, keys) ∈ ws2Keys wsLookup targetKeys ∧ key ∈ keys := by
  have hfold (m : List (WSName × List KeyType))
      (hk : key ∈ targetKeys ∨ ∃ keys, (wsLookup key, keys) ∈ m ∧ key ∈ keys) :
      ∃ keys, (wsLookup key, keys) ∈ targetKeys.foldl (fun m key => insertKey (wsLookup key) key m) m ∧
        key ∈ keys := by
    clear h
    induction targetKeys generalizing m with
    | nil => exact hk.resolve_left not_mem_nil
    | cons k keys ih =>
      refine ih _ ?_
      rcases hk with hk | ⟨keys', hkeys, hkey⟩
      · rcases mem_cons.mp hk with rfl | hk
        · exact .inr mem_insertKey_self
        · exact .inl hk
      · exact .inr (mem_insertKey_of_mem hkeys hkey)
  exact hfold [] (.inl h)

/-- The mutexes that `lock` locks, in this order. -/
def lock (wsLookup : KeyType → WSName) (mHashFunc : KeyType → UInt64) (targetKeys : List KeyType) :
    List SegmentId :=
  (ws2Keys wsLookup targetKeys).flatMap fun e =>
    (ConcurInMemoryKVStore.lock mHashFunc e.2).map fun i => toLex (e.1, i)

/-- The mutexes that `unlock` unlocks, in this order. -/
def unlock (wsLookup : KeyType → WSName) (mHashFunc : KeyType → UInt64) (targetKeys : List KeyType) :
    List SegmentId :=
  (ws2Keys wsLookup targetKeys).flatMap fun e =>
    (ConcurInMemoryKVStore.unlock mHashFunc e.2).map fun i => toLex (e.1, i)

theorem unlock_eq_lock : unlock wsLookup mHashFunc targetKeys = lock wsLookup mHashFunc targetKeys :=
  rfl

theorem sorted_lock : (lock wsLookup mHashFunc targetKeys).Pairwise (· < ·) := by
  refine pairwise_flatMap.mpr ⟨fun e _ => ?_, ?_⟩
  · refine List.Pairwise.map _ (fun i j hij => ?_) ConcurInMemoryKVStore.sorted_segments
    exact Prod.Lex.toLex_lt_toLex.mpr (.inr ⟨rfl, hij⟩)
  · refine (pairwise_map.mp sorted_ws2Keys).imp fun {e e'} hlt x hx y hy => ?_
    obtain ⟨i, -, rfl⟩ := mem_map.mp hx
    obtain ⟨j, -, rfl⟩ := mem_map.mp hy
    exact Prod.Lex.toLex_lt_toLex.mpr (.inl hlt)

theorem mem_lock {key : KeyType} (h : key ∈ targetKeys) :
    toLex (wsLookup key, ConcurInMemoryKVStore.calculateSegmentIndex mHashFunc key) ∈
      lock wsLookup mHashFunc targetKeys := by
  obtain ⟨keys, hkeys, hkey⟩ := @mem_ws2Keys wsLookup targetKeys key h
  refine mem_flatMap.mpr ⟨_, hkeys, ?_⟩
  exact mem_map.mpr ⟨_, ConcurInMemoryKVStore.mem_segments hkey, rfl⟩

/-- The keys that a command locks. -/
structure Locking where
  targetKeys : List KeyType
  isExclusive : Bool

/-- Locking the keys, and later unlocking the same keys. -/
def job (wsLookup : KeyType → WSName) (mHashFunc : KeyType → UInt64) (c : Locking) : Job SegmentId where
  locks := lock wsLookup mHashFunc c.targetKeys
  unlocks := unlock wsLookup mHashFunc c.targetKeys
  exclusive := c.isExclusive
  sorted := sorted_lock
  unlocks_eq := unlock_eq_lock

/-- In every state that the commands reach, some command can go on unless all have unlocked their keys;
the mutexes are exactly those that the commands have locked and not unlocked; and two commands that
are both between `lock` and `unlock` and share a key only share it. -/
theorem locks_safe {ι : Type} [Fintype ι] [DecidableEq ι] (wsLookup : KeyType → WSName)
    (mHashFunc : KeyType → UInt64) (commands : ι → Locking) {acts : List ι}
    {s : LockTable ι SegmentId}
    (hs : exec (LockTable.step fun i => job wsLookup mHashFunc (commands i)) {} acts = some s) :
    ((∀ i, LockTable.Done (fun i => job wsLookup mHashFunc (commands i)) s i) ∨
      ∃ i, (LockTable.step (fun i => job wsLookup mHashFunc (commands i)) s i).isSome ∧
        ∀ l, LockTable.awaits (fun i => job wsLookup mHashFunc (commands i)) s i = some l →
          s.mutex l = {}) ∧
    (∀ l, (s.mutex l).writer.toNat =
        LockTable.count (fun i => job wsLookup mHashFunc (commands i)) true l s.phase ∧
      (s.mutex l).readers =
        LockTable.count (fun i => job wsLookup mHashFunc (commands i)) false l s.phase) ∧
    (∀ i, LockTable.Done (fun i => job wsLookup mHashFunc (commands i)) s i →
      LockTable.held (fun i => job wsLookup mHashFunc (commands i)) i (s.phase i) = []) ∧
    ∀ i j key, i ≠ j → key ∈ (commands i).targetKeys → key ∈ (commands j).targetKeys →
      s.phase i = .inside → s.phase j = .inside →
      (commands i).isExclusive = false ∧ (commands j).isExclusive = false := by
  have hinv : LockTable.Inv (fun i => job wsLookup mHashFunc (commands i)) s :=
    exec_invariant_of_step (fun _ _ _ h ht => h.step ht) (LockTable.inv_init _) hs
  refine ⟨hinv.exists_step, fun l => ⟨hinv.writer l, hinv.readers l⟩,
    fun i => LockTable.held_eq_nil_of_done, fun i j key hij hi hj hini hinj => ?_⟩
  have hmem (k : ι) (hk : key ∈ (commands k).targetKeys) (hink : s.phase k = .inside) :
      toLex (wsLookup key, ConcurInMemoryKVStore.calculateSegmentIndex mHashFunc key) ∈
        LockTable.held (fun i => job wsLookup mHashFunc (commands i)) k (s.phase k) := by
    rw [hink]
    exact mem_lock hk
  exact ⟨hinv.not_exclusive hij (hmem i hi hini) (hmem j hj hinj),
    hinv.not_exclusive hij.symm (hmem j hj hinj) (hmem i hi hini)⟩

/-- Two commands that write the same key; the first one has locked it. -/
def sameKey : Fin 2 → Locking := fun _ => ⟨["k"], true⟩

theorem sameKey_apart : ∃ s, exec (LockTable.step fun i => job (fun _ => "ws") (fun _ => 0) (sameKey i)) {}
      [0, 0] = some s ∧ (s.phase 0 = .inside → s.phase 1 ≠ .inside) := by
  obtain ⟨s, hs⟩ := Option.isSome_iff_exists.mp (show (exec (LockTable.step fun i =>
    job (fun _ => "ws") (fun _ => 0) (sameKey i)) {} [0, 0]).isSome by decide +kernel)
  refine ⟨s, hs, fun h0 h1 => ?_⟩
  have hsafe := (locks_safe (fun _ => "ws") (fun _ => 0) sameKey hs).2.2.2
  exact absurd (hsafe 0 1 "k" (by decide) (by decide) (by decide) h0 h1).1 (by decide)

end WSConcurInMemoryKVStore

end Goblin.Store
