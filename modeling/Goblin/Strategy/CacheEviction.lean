import Goblin.Lib.Run
import Goblin.Model.Types

/-! `LRUEviction`: the keys of the cache in the order of their last use, and the batch of keys to evict. -/
namespace Goblin.Strategy

open Model Lib

/-- The sizes are `size_t`. -/
structure LRUConfig where
  mOptimal : UInt64
  mMinBatch : UInt64
  mMaxBatch : UInt64

/-- A `KVEvictCommand` in the queue of the processor. -/
structure EvictCommand where
  mEvictKeys : Finset KeyType
  mEvictVersion : ℕ

/-- A node of `mUsed` has a number, which is what an iterator holds; `nextNode` numbers the next node that is
allocated. `mCommandQueue` is what was submitted. -/
structure LRUEviction where
  mCurUsage : UInt64 := 0
  mPendingEvictBatch : Finset KeyType := ∅
  mUsed : List (ℕ × KeyType) := []
  mCacheMap : KeyType → Option (UInt64 × ℕ) := fun _ => none
  nextNode : ℕ := 0
  mCommandQueue : List EvictCommand := []

/-- A call of the observer; with a write comes what `getLastAppliedVersion` would answer. -/
inductive Call
  | read (key : KeyType)
  | write (key : KeyType) (valueSize : UInt64) (lastAppliedVersion : ℕ)
  deriving DecidableEq

def Call.key : Call → KeyType
  | .read key => key
  | .write key _ _ => key

namespace LRUEviction

/-- An iterator that points to no node of the list must not be erased. -/
def eraseNode (used : List (ℕ × KeyType)) (it : ℕ) : Option (List (ℕ × KeyType)) :=
  if used.any (·.1 = it) then some (used.filter (·.1 ≠ it)) else none

/-- The key moves to the front, under a new node; its entry is replaced. -/
def touch (s : LRUEviction) (key : KeyType) (valueSize : UInt64) (it : ℕ) : Option LRUEviction :=
  (eraseNode s.mUsed it).map fun used => { s with
    mUsed := (s.nextNode, key) :: used
    mCacheMap := Function.update s.mCacheMap key (some (valueSize, s.nextNode))
    nextNode := s.nextNode + 1 }

def onReadValue (s : LRUEviction) (key : KeyType) : Option LRUEviction :=
  match s.mCacheMap key with
  | none => some s
  | some (valueSize, it) => s.touch key valueSize it

/-- `onWriteValue` up to the eviction. On an overwrite the new size is what is taken off again. -/
def insert (s : LRUEviction) (key : KeyType) (valueSize : UInt64) : Option LRUEviction :=
  match s.mCacheMap key with
  | none => some { s with
      mCurUsage := s.mCurUsage + valueSize
      mUsed := (s.nextNode, key) :: s.mUsed
      mCacheMap := Function.update s.mCacheMap key (some (valueSize, s.nextNode))
      nextNode := s.nextNode + 1 }
  | some (_, it) => { s with mCurUsage := s.mCurUsage + valueSize - valueSize }.touch key valueSize it

/-- `mCacheMap[key].first`, which is zero for a key that the map does not have. -/
def sizeOf (s : LRUEviction) (key : KeyType) : UInt64 :=
  ((s.mCacheMap key).map Prod.fst).getD 0

/-- One turn of the loop: the last key of the list goes to the batch. -/
def evictBack (s : LRUEviction) (key : KeyType) : LRUEviction :=
  { s with
    mCurUsage := s.mCurUsage - s.sizeOf key
    mPendingEvictBatch := Insert.insert key s.mPendingEvictBatch
    mUsed := s.mUsed.dropLast
    mCacheMap := Function.update s.mCacheMap key none }

/-- The loop, with the keys that it moves. Each turn takes a node from the list, so their number is enough
fuel. -/
def evictLoop (cfg : LRUConfig) : ℕ → LRUEviction → List KeyType × LRUEviction
  | 0, s => ([], s)
  | fuel + 1, s =>
    if s.mCurUsage > 0 ∧ s.mPendingEvictBatch.card < cfg.mMaxBatch.toNat then
      match s.mUsed.getLast? with
      | none => ([], s)
      | some (_, key) =>
        let r := evictLoop cfg fuel (s.evictBack key)
        (key :: r.1, r.2)
    else ([], s)

def maybeSubmitEvictCommand (cfg : LRUConfig) (s : LRUEviction) (lastAppliedVersion : ℕ) : LRUEviction :=
  if s.mPendingEvictBatch.card ≥ cfg.mMinBatch.toNat then
    { s with
      mCommandQueue := s.mCommandQueue ++ [⟨s.mPendingEvictBatch, lastAppliedVersion⟩]
      mPendingEvictBatch := ∅ }
  else s

/-- The keys that are moved to the batch once the written key is in the list. -/
def moved (cfg : LRUConfig) (s : LRUEviction) : List KeyType :=
  if s.mCurUsage > cfg.mOptimal then (evictLoop cfg s.mUsed.length s).1 else []

def evict (cfg : LRUConfig) (s : LRUEviction) (lastAppliedVersion : ℕ) : LRUEviction :=
  if s.mCurUsage > cfg.mOptimal then
    (evictLoop cfg s.mUsed.length s).2.maybeSubmitEvictCommand cfg lastAppliedVersion
  else s

def onWriteValue (cfg : LRUConfig) (s : LRUEviction) (key : KeyType) (valueSize : UInt64) (lastAppliedVersion : ℕ) :
    Option LRUEviction :=
  (s.insert key valueSize).map fun s => s.evict cfg lastAppliedVersion

def step (cfg : LRUConfig) (s : LRUEviction) : Call → Option LRUEviction
  | .read key => s.onReadValue key
  | .write key valueSize lastAppliedVersion => s.onWriteValue cfg key valueSize lastAppliedVersion

/-- The size that was last written for a key. -/
def latest (calls : List Call) (key : KeyType) : Option UInt64 :=
  calls.reverse.findSome? fun
    | .write k valueSize _ => if k = key then some valueSize else none
    | .read _ => none

/-- The keys in the order of their last use, oldest first: `dedup` keeps the last of equal members. -/
def byLastUse (calls : List Call) : List KeyType := (calls.map Call.key).dedup

/-- The list and the map belong together: the iterators point to the nodes of their keys, and the list is in
the order of last use. -/
structure Linked (calls : List Call) (s : LRUEviction) : Prop where
  points : ∀ key valueSize it, s.mCacheMap key = some (valueSize, it) → (it, key) ∈ s.mUsed
  mapped : ∀ n ∈ s.mUsed, ∃ valueSize, s.mCacheMap n.2 = some (valueSize, n.1)
  nodes : (s.mUsed.map Prod.fst).Nodup
  fresh : ∀ n ∈ s.mUsed, n.1 < s.nextNode
  sizes : ∀ key valueSize it, s.mCacheMap key = some (valueSize, it) → latest calls key = some valueSize
  order : (s.mUsed.map Prod.snd).reverse = (byLastUse calls).filter fun key => (s.mCacheMap key).isSome

section History

variable {calls : List Call} {key k : KeyType}

theorem dedup_concat {α : Type} [DecidableEq α] (as : List α) (a : α) :
    (as ++ [a]).dedup = as.dedup.filter (· ≠ a) ++ [a] := by
  induction as with
  | nil => simp
  | cons b as ih =>
    rw [List.cons_append]
    by_cases hb : b ∈ as
    · rw [List.dedup_cons_of_mem (List.mem_append_left _ hb), List.dedup_cons_of_mem hb, ih]
    · by_cases hba : b = a
      · subst hba
        rw [List.dedup_cons_of_mem (by simp), List.dedup_cons_of_notMem hb, ih]
        simp
      · rw [List.dedup_cons_of_notMem (by simp [hb, hba]), List.dedup_cons_of_notMem hb, ih]
        simp [hba]

theorem byLastUse_concat (calls : List Call) (c : Call) :
    byLastUse (calls ++ [c]) = (byLastUse calls).filter (· ≠ c.key) ++ [c.key] := by
  rw [byLastUse, List.map_append, List.map_singleton, dedup_concat]
  rfl

theorem latest_read (calls : List Call) (k : KeyType) : latest (calls ++ [.read k]) key = latest calls key := by
  simp [latest]

theorem latest_write (calls : List Call) (valueSize : UInt64) (version : ℕ) :
    latest (calls ++ [.write k valueSize version]) key =
      if k = key then some valueSize else latest calls key := by
  by_cases hk : k = key <;> simp [latest, hk]

end History

namespace Linked

variable {calls : List Call} {s s' : LRUEviction} {key k : KeyType} {valueSize : UInt64} {it : ℕ}

theorem nodup_keys (h : Linked calls s) : (s.mUsed.map Prod.snd).Nodup := by
  rw [← List.nodup_reverse, h.order]
  exact (List.nodup_dedup _).filter _

theorem mem_keys (h : Linked calls s) : k ∈ s.mUsed.map Prod.snd ↔ (s.mCacheMap k).isSome := by
  constructor
  · intro hk
    obtain ⟨n, hn, rfl⟩ := List.mem_map.mp hk
    obtain ⟨valueSize, hv⟩ := h.mapped n hn
    rw [hv]
    rfl
  · intro hk
    obtain ⟨⟨valueSize, it⟩, hv⟩ := Option.isSome_iff_exists.mp hk
    exact List.mem_map_of_mem (f := Prod.snd) (h.points k valueSize it hv)

theorem fst_eq_iff (h : Linked calls s) (hv : s.mCacheMap key = some (valueSize, it)) {n : ℕ × KeyType}
    (hn : n ∈ s.mUsed) : n.1 = it ↔ n.2 = key := by
  constructor
  · intro hit
    have hmem := h.points key valueSize it hv
    have heq : n = (it, key) := List.inj_on_of_nodup_map h.nodes hn hmem hit
    rw [heq]
  · intro hkey
    obtain ⟨valueSize', hv'⟩ := h.mapped n hn
    rw [hkey, hv] at hv'
    cases hv'
    rfl

theorem eraseNode_eq (h : Linked calls s) (hv : s.mCacheMap key = some (valueSize, it)) :
    eraseNode s.mUsed it = some (s.mUsed.filter (·.2 ≠ key)) := by
  have hany : s.mUsed.any (·.1 = it) = true :=
    List.any_eq_true.mpr ⟨(it, key), h.points key valueSize it hv, by simp⟩
  rw [eraseNode, if_pos hany]
  congr 1
  refine List.filter_congr fun n hn => ?_
  simp [h.fst_eq_iff hv hn]

end Linked

/-- The key is first in the list, under a new node. -/
def front (s : LRUEviction) (key : KeyType) (valueSize : UInt64) : LRUEviction :=
  { s with
    mUsed := (s.nextNode, key) :: s.mUsed.filter (·.2 ≠ key)
    mCacheMap := Function.update s.mCacheMap key (some (valueSize, s.nextNode))
    nextNode := s.nextNode + 1 }

@[simp] theorem front_mUsed (s : LRUEviction) (key : KeyType) (valueSize : UInt64) :
    (s.front key valueSize).mUsed = (s.nextNode, key) :: s.mUsed.filter (·.2 ≠ key) := rfl

@[simp] theorem front_mCacheMap_self (s : LRUEviction) (key : KeyType) (valueSize : UInt64) :
    (s.front key valueSize).mCacheMap key = some (valueSize, s.nextNode) :=
  Function.update_self ..

theorem front_mCacheMap_of_ne (s : LRUEviction) {key k : KeyType} (h : k ≠ key) (valueSize : UInt64) :
    (s.front key valueSize).mCacheMap k = s.mCacheMap k :=
  Function.update_of_ne h ..

@[simp] theorem evictBack_mCacheMap_self (s : LRUEviction) (key : KeyType) :
    (s.evictBack key).mCacheMap key = none :=
  Function.update_self ..

theorem evictBack_mCacheMap_of_ne (s : LRUEviction) {key k : KeyType} (h : k ≠ key) :
    (s.evictBack key).mCacheMap k = s.mCacheMap k :=
  Function.update_of_ne h ..

namespace Linked

variable {calls : List Call} {s s' : LRUEviction} {key k : KeyType} {valueSize : UInt64} {it : ℕ}

theorem withUsage (h : Linked calls s) (usage : UInt64) : Linked calls { s with mCurUsage := usage } :=
  ⟨h.points, h.mapped, h.nodes, h.fresh, h.sizes, h.order⟩

theorem onReadValue_eq (h : Linked calls s) (key : KeyType) :
    s.onReadValue key = some (match s.mCacheMap key with
      | none => s
      | some (valueSize, _) => s.front key valueSize) := by
  unfold onReadValue
  cases hv : s.mCacheMap key with
  | none => rfl
  | some v => simp only [touch, h.eraseNode_eq hv, Option.map_some, LRUEviction.front]

theorem insert_eq (h : Linked calls s) (key : KeyType) (valueSize : UInt64) :
    s.insert key valueSize = some ({ s with
      mCurUsage := if (s.mCacheMap key).isSome then s.mCurUsage else s.mCurUsage + valueSize }.front key
        valueSize) := by
  unfold LRUEviction.insert
  cases hv : s.mCacheMap key with
  | none =>
    have hkey : ∀ n ∈ s.mUsed, n.2 ≠ key := by
      intro n hn heq
      obtain ⟨size, hsize⟩ := h.mapped n hn
      rw [heq, hv] at hsize
      cases hsize
    have hfilter : s.mUsed.filter (·.2 ≠ key) = s.mUsed :=
      List.filter_eq_self.mpr fun n hn => by simpa using hkey n hn
    rw [LRUEviction.front, hfilter]
    rfl
  | some v =>
    have herase := (h.withUsage s.mCurUsage).eraseNode_eq hv
    simp [touch, herase, LRUEviction.front]

theorem front (h : Linked calls s) {c : Call} (hc : c.key = key) (hsize : latest (calls ++ [c]) key = some valueSize)
    (hother : ∀ k, k ≠ key → latest (calls ++ [c]) k = latest calls k) :
    Linked (calls ++ [c]) (s.front key valueSize) where
  points k size it hk := by
    by_cases hkey : k = key
    · subst hkey
      rw [front_mCacheMap_self] at hk
      cases hk
      exact List.mem_cons_self
    · rw [front_mCacheMap_of_ne s hkey] at hk
      exact List.mem_cons_of_mem _ (List.mem_filter.mpr ⟨h.points k size it hk, by simpa using hkey⟩)
  mapped n hn := by
    rcases List.mem_cons.mp hn with rfl | hn
    · exact ⟨valueSize, front_mCacheMap_self ..⟩
    · obtain ⟨hn, hkey⟩ := List.mem_filter.mp hn
      obtain ⟨size, hsize⟩ := h.mapped n hn
      exact ⟨size, by rw [front_mCacheMap_of_ne s (by simpa using hkey), hsize]⟩
  nodes := by
    have hsub : ((s.mUsed.filter (·.2 ≠ key)).map Prod.fst).Nodup :=
      h.nodes.sublist ((List.filter_sublist).map _)
    refine List.nodup_cons.mpr ⟨fun hmem => ?_, hsub⟩
    obtain ⟨n, hn, heq⟩ := List.mem_map.mp hmem
    have hlt := h.fresh n (List.mem_of_mem_filter hn)
    omega
  fresh n hn := by
    rcases List.mem_cons.mp hn with rfl | hn
    · exact Nat.lt_succ_self _
    · exact Nat.lt_succ_of_lt (h.fresh n (List.mem_of_mem_filter hn))
  sizes k size it hk := by
    by_cases hkey : k = key
    · subst hkey
      rw [front_mCacheMap_self] at hk
      cases hk
      exact hsize
    · rw [front_mCacheMap_of_ne s hkey] at hk
      rw [hother k hkey]
      exact h.sizes k size it hk
  order := by
    have hkeys : (s.mUsed.filter (·.2 ≠ key)).map Prod.snd = (s.mUsed.map Prod.snd).filter (· ≠ key) := by
      rw [List.filter_map]
      rfl
    rw [byLastUse_concat, hc, List.filter_append, front_mUsed, List.map_cons, List.reverse_cons, hkeys,
      ← List.filter_reverse, h.order, List.filter_filter, List.filter_filter]
    congr 1
    · refine List.filter_congr fun k _ => ?_
      by_cases hkey : k = key
      · simp [hkey]
      · simp [hkey, front_mCacheMap_of_ne s hkey]
    · simp

theorem read_of_none (h : Linked calls s) (hnone : s.mCacheMap key = none) : Linked (calls ++ [.read key]) s :=
  { h with
    sizes k size it hk := by
      rw [latest_read]
      exact h.sizes k size it hk
    order := by
      rw [byLastUse_concat, h.order, List.filter_append, List.filter_filter]
      have hlast : ([key].filter fun k => (s.mCacheMap k).isSome) = [] := by simp [hnone]
      rw [Call.key, hlast, List.append_nil]
      refine List.filter_congr fun k _ => ?_
      by_cases hkey : k = key
      · simp [hkey, hnone]
      · simp [hkey] }

theorem evictBack (h : Linked calls s) (hlast : s.mUsed.getLast? = some (it, key)) :
    Linked calls (s.evictBack key) := by
  obtain ⟨used, hused⟩ : ∃ used, s.mUsed = used ++ [(it, key)] := List.getLast?_eq_some_iff.mp hlast
  have hdrop : s.mUsed.dropLast = used := by rw [hused, List.dropLast_concat]
  have hkeys := h.nodup_keys
  rw [hused, List.map_append, List.nodup_append] at hkeys
  have hne : ∀ n ∈ used, n.2 ≠ key := fun n hn heq =>
    hkeys.2.2 n.2 (List.mem_map_of_mem (f := Prod.snd) hn) key (by simp) heq
  have hmem : ∀ n ∈ used, n ∈ s.mUsed := fun n hn => by
    rw [hused]
    exact List.mem_append_left _ hn
  have hevict : (s.evictBack key).mUsed = used := hdrop
  refine ⟨fun k size i hk => ?_, fun n hn => ?_, ?_, fun n hn => ?_, fun k size i hk => ?_, ?_⟩
  · by_cases hkey : k = key
    · rw [hkey, evictBack_mCacheMap_self] at hk
      cases hk
    · rw [evictBack_mCacheMap_of_ne s hkey] at hk
      have hnode := h.points k size i hk
      rw [hused] at hnode
      rcases List.mem_append.mp hnode with hnode | hnode
      · rw [hevict]
        exact hnode
      · cases List.mem_singleton.mp hnode
        exact absurd rfl hkey
  · rw [hevict] at hn
    obtain ⟨size, hsize⟩ := h.mapped n (hmem n hn)
    exact ⟨size, by rw [evictBack_mCacheMap_of_ne s (hne n hn), hsize]⟩
  · have hnodes := h.nodes
    rw [hused, List.map_append] at hnodes
    rw [hevict]
    exact (List.nodup_append.mp hnodes).1
  · rw [hevict] at hn
    exact h.fresh n (hmem n hn)
  · by_cases hkey : k = key
    · rw [hkey, evictBack_mCacheMap_self] at hk
      cases hk
    · rw [evictBack_mCacheMap_of_ne s hkey] at hk
      exact h.sizes k size i hk
  · have horder := h.order
    rw [hused, List.map_append, List.reverse_append] at horder
    -- the key is the first of the filtered list, and does not come again
    have hcongr : (byLastUse calls).filter (fun k => ((s.evictBack key).mCacheMap k).isSome) =
        ((byLastUse calls).filter fun k => (s.mCacheMap k).isSome).filter (· ≠ key) := by
      rw [List.filter_filter]
      refine List.filter_congr fun k _ => ?_
      by_cases hkey : k = key
      · simp [hkey]
      · simp [hkey, evictBack_mCacheMap_of_ne s hkey]
    have hrest : ((used.map Prod.snd).reverse).filter (· ≠ key) = (used.map Prod.snd).reverse := by
      refine List.filter_eq_self.mpr fun k hk => ?_
      obtain ⟨n, hn, rfl⟩ := List.mem_map.mp (List.mem_reverse.mp hk)
      simpa using hne n hn
    have hhead : ([(it, key)].map Prod.snd).reverse.filter (· ≠ key) = [] := by simp
    rw [hevict, hcongr, ← horder, List.filter_append, hhead, hrest, List.nil_append]

theorem evictLoop (h : Linked calls s) (cfg : LRUConfig) (fuel : ℕ) : Linked calls (evictLoop cfg fuel s).2 := by
  induction fuel generalizing s with
  | zero => exact h
  | succ fuel ih =>
    unfold LRUEviction.evictLoop
    split_ifs
    · cases hlast : s.mUsed.getLast? with
      | none => exact h
      | some n => exact ih (h.evictBack hlast)
    · exact h

theorem evict (h : Linked calls s) (cfg : LRUConfig) (version : ℕ) : Linked calls (s.evict cfg version) := by
  unfold LRUEviction.evict maybeSubmitEvictCommand
  have hloop := h.evictLoop cfg s.mUsed.length
  split_ifs
  · exact ⟨hloop.points, hloop.mapped, hloop.nodes, hloop.fresh, hloop.sizes, hloop.order⟩
  · exact hloop
  · exact h

end Linked

/-- What a write leaves before anything is evicted. -/
def inserted (s : LRUEviction) (key : KeyType) (valueSize : UInt64) : LRUEviction :=
  { s with mCurUsage := if (s.mCacheMap key).isSome then s.mCurUsage else s.mCurUsage + valueSize }.front key
    valueSize

theorem Linked.onWriteValue_eq {calls : List Call} {s : LRUEviction} (h : Linked calls s) (cfg : LRUConfig)
    (key : KeyType) (valueSize : UInt64) (version : ℕ) :
    s.onWriteValue cfg key valueSize version = some ((s.inserted key valueSize).evict cfg version) := by
  rw [onWriteValue, h.insert_eq]
  rfl

theorem Linked.inserted {calls : List Call} {s : LRUEviction} (h : Linked calls s) (key : KeyType)
    (valueSize : UInt64) (version : ℕ) :
    Linked (calls ++ [.write key valueSize version]) (s.inserted key valueSize) := by
  refine (h.withUsage _).front rfl ?_ fun k hk => ?_
  · rw [latest_write, if_pos rfl]
  · rw [latest_write, if_neg (Ne.symm hk)]

theorem Linked.step {calls : List Call} {s : LRUEviction} (h : Linked calls s) (cfg : LRUConfig) (c : Call) :
    ∃ s', s.step cfg c = some s' ∧ Linked (calls ++ [c]) s' := by
  cases c with
  | read key =>
    refine ⟨_, h.onReadValue_eq key, ?_⟩
    cases hv : s.mCacheMap key with
    | none => exact h.read_of_none hv
    | some v =>
      refine h.front rfl ?_ fun k _ => latest_read ..
      rw [latest_read]
      exact h.sizes key v.1 v.2 hv
  | write key valueSize version =>
    exact ⟨_, h.onWriteValue_eq cfg key valueSize version, (h.inserted key valueSize version).evict cfg version⟩

theorem linked_start : Linked [] {} where
  points _ _ _ h := by cases h
  mapped _ h := by cases h
  nodes := List.nodup_nil
  fresh _ h := by cases h
  sizes _ _ _ h := by cases h
  order := rfl

/-- Induction on the calls that are left. -/
theorem Linked.exec {done : List Call} {s : LRUEviction} (h : Linked done s) (cfg : LRUConfig) (calls : List Call) :
    ∃ s', Lib.exec (LRUEviction.step cfg) s calls = some s' ∧ Linked (done ++ calls) s' := by
  induction calls generalizing done s with
  | nil => exact ⟨s, rfl, by rwa [List.append_nil]⟩
  | cons c calls ih =>
    obtain ⟨t, ht, hlinked⟩ := h.step cfg c
    obtain ⟨s', hs', hlinked'⟩ := ih hlinked
    exact ⟨s', by rw [Lib.exec, ht]; exact hs', by simpa using hlinked'⟩

section Usage

variable {calls : List Call} {s : LRUEviction} {key : KeyType} {valueSize : UInt64}

/-- The sum of the sizes that the map has for the keys of the list. -/
def total (s : LRUEviction) : ℕ := ((s.mUsed.map Prod.snd).map fun k => (s.sizeOf k).toNat).sum

theorem sizeOf_of_some {v : UInt64 × ℕ} (h : s.mCacheMap key = some v) : s.sizeOf key = v.1 := by
  simp [sizeOf, h]

theorem total_front (h : Linked calls s) (key : KeyType) (valueSize : UInt64) :
    (s.front key valueSize).total + (s.sizeOf key).toNat = s.total + valueSize.toNat := by
  have hfilter : (s.mUsed.filter (·.2 ≠ key)).map Prod.snd = (s.mUsed.map Prod.snd).filter (· ≠ key) := by
    rw [List.filter_map]
    rfl
  have herase : (s.mUsed.map Prod.snd).filter (· ≠ key) = (s.mUsed.map Prod.snd).erase key := by
    rw [h.nodup_keys.erase_eq_filter]
    refine List.filter_congr fun k _ => ?_
    simp [bne, beq_eq_decide]
  have hsame : ((s.mUsed.map Prod.snd).erase key).map (fun k => ((s.front key valueSize).sizeOf k).toNat) =
      ((s.mUsed.map Prod.snd).erase key).map fun k => (s.sizeOf k).toNat := by
    refine List.map_congr_left fun k hk => ?_
    have hne : k ≠ key := ((List.Nodup.mem_erase_iff h.nodup_keys).mp hk).1
    simp only [sizeOf, front_mCacheMap_of_ne s hne]
  have htotal : (s.front key valueSize).total =
      valueSize.toNat + (((s.mUsed.map Prod.snd).erase key).map fun k => (s.sizeOf k).toNat).sum := by
    rw [total, front_mUsed, List.map_cons, List.map_cons, List.sum_cons, hfilter, herase, hsame,
      sizeOf_of_some (front_mCacheMap_self ..)]
  by_cases hkey : key ∈ s.mUsed.map Prod.snd
  · have hsum := List.sum_map_erase (fun k => (s.sizeOf k).toNat) hkey
    rw [htotal, total]
    omega
  · have hzero : s.sizeOf key = 0 := by
      have hnone : s.mCacheMap key = none := by
        rw [← Option.not_isSome_iff_eq_none, ← h.mem_keys]
        exact hkey
      simp [sizeOf, hnone]
    rw [htotal, List.erase_of_not_mem hkey, hzero, total, UInt64.toNat_zero]
    omega

theorem total_inserted (h : Linked calls s) (key : KeyType) (valueSize : UInt64) :
    (s.inserted key valueSize).total + (s.sizeOf key).toNat = s.total + valueSize.toNat :=
  total_front (h.withUsage _) key valueSize

theorem total_evictBack (h : Linked calls s) {it : ℕ} (hlast : s.mUsed.getLast? = some (it, key)) :
    (s.evictBack key).total + (s.sizeOf key).toNat = s.total := by
  obtain ⟨used, hused⟩ : ∃ used, s.mUsed = used ++ [(it, key)] := List.getLast?_eq_some_iff.mp hlast
  have hkeys := h.nodup_keys
  rw [hused, List.map_append, List.nodup_append] at hkeys
  have hevict : (s.evictBack key).mUsed = used := by
    change s.mUsed.dropLast = used
    rw [hused, List.dropLast_concat]
  have hsame : (used.map Prod.snd).map (fun k => ((s.evictBack key).sizeOf k).toNat) =
      (used.map Prod.snd).map fun k => (s.sizeOf k).toNat := by
    refine List.map_congr_left fun k hk => ?_
    have hne : k ≠ key := fun heq => hkeys.2.2 k hk key (by simp) heq
    simp only [sizeOf, evictBack_mCacheMap_of_ne s hne]
  rw [total, total, hevict, hused, hsame, List.map_append, List.map_append, List.sum_append]
  simp

/-- The running total is the sum of the sizes. -/
def Counted (s : LRUEviction) : Prop := s.mCurUsage.toNat = s.total

theorem Counted.evictBack (h : s.Counted) (hlinked : Linked calls s) {it : ℕ}
    (hlast : s.mUsed.getLast? = some (it, key)) : (s.evictBack key).Counted := by
  have htotal := total_evictBack hlinked hlast
  have hle : s.sizeOf key ≤ s.mCurUsage := by
    rw [UInt64.le_iff_toNat_le, h]
    omega
  have hsub : (s.evictBack key).mCurUsage.toNat = s.mCurUsage.toNat - (s.sizeOf key).toNat :=
    UInt64.toNat_sub_of_le _ _ hle
  rw [Counted, hsub, h]
  omega

theorem Counted.evictLoop (h : s.Counted) (hlinked : Linked calls s) (cfg : LRUConfig) (fuel : ℕ) :
    (evictLoop cfg fuel s).2.Counted := by
  induction fuel generalizing s with
  | zero => exact h
  | succ fuel ih =>
    unfold LRUEviction.evictLoop
    split_ifs
    · cases hlast : s.mUsed.getLast? with
      | none => exact h
      | some n => exact ih (h.evictBack hlinked hlast) (hlinked.evictBack hlast)
    · exact h

theorem Counted.evict (h : s.Counted) (hlinked : Linked calls s) (cfg : LRUConfig) (version : ℕ) :
    (s.evict cfg version).Counted := by
  have hloop := h.evictLoop hlinked cfg s.mUsed.length
  unfold LRUEviction.evict maybeSubmitEvictCommand
  split_ifs
  · exact hloop
  · exact hloop
  · exact h

end Usage

/-- A write keeps the size of a key that is in the map, and the size of a new key fits into the total. -/
def Steady (s : LRUEviction) : Call → Prop
  | .read _ => True
  | .write key valueSize _ =>
    match s.mCacheMap key with
    | some (old, _) => old = valueSize
    | none => s.mCurUsage.toNat + valueSize.toNat < 2 ^ 64

instance (s : LRUEviction) : (c : Call) → Decidable (s.Steady c)
  | .read _ => isTrue trivial
  | .write key valueSize _ =>
    match h : s.mCacheMap key with
    | some (old, _) => decidable_of_iff (old = valueSize) (by simp [Steady, h])
    | none => decidable_of_iff (s.mCurUsage.toNat + valueSize.toNat < 2 ^ 64) (by simp [Steady, h])

theorem Counted.step {calls : List Call} {s s' : LRUEviction} (h : s.Counted) (hlinked : Linked calls s)
    {cfg : LRUConfig} {c : Call} (hc : s.Steady c) (hs : s.step cfg c = some s') : s'.Counted := by
  cases c with
  | read key =>
    rw [LRUEviction.step, hlinked.onReadValue_eq] at hs
    cases hv : s.mCacheMap key with
    | none =>
      rw [hv] at hs
      cases hs
      exact h
    | some v =>
      rw [hv] at hs
      cases hs
      have htotal := total_front hlinked key v.1
      rw [sizeOf_of_some hv] at htotal
      change s.mCurUsage.toNat = (s.front key v.1).total
      rw [h]
      omega
  | write key valueSize version =>
    rw [LRUEviction.step, hlinked.onWriteValue_eq] at hs
    cases hs
    refine Counted.evict ?_ (hlinked.inserted key valueSize version) cfg version
    have htotal := total_inserted hlinked key valueSize
    change (if (s.mCacheMap key).isSome then s.mCurUsage else s.mCurUsage + valueSize).toNat = _
    cases hv : s.mCacheMap key with
    | some v =>
      rw [Steady, hv] at hc
      have hsize : v.1 = valueSize := hc
      rw [sizeOf_of_some hv, hsize] at htotal
      rw [Option.isSome_some, if_pos rfl, h]
      omega
    | none =>
      rw [Steady, hv] at hc
      have hfits : s.mCurUsage.toNat + valueSize.toNat < 2 ^ 64 := hc
      have hsize : s.sizeOf key = 0 := by simp [sizeOf, hv]
      rw [hsize, UInt64.toNat_zero] at htotal
      rw [Option.isSome_none, if_neg Bool.false_ne_true, UInt64.toNat_add, Nat.mod_eq_of_lt hfits, h]
      omega

/-- The books of the cache after a history of calls. -/
structure Bookkept (calls : List Call) (s : LRUEviction) : Prop where
  usage : s.mCurUsage.toNat = ((s.mUsed.map Prod.snd).map fun k => ((latest calls k).getD 0).toNat).sum
  once : (s.mUsed.map Prod.snd).Nodup
  listed : ∀ key, key ∈ s.mUsed.map Prod.snd ↔ (s.mCacheMap key).isSome
  order : (s.mUsed.map Prod.snd).reverse = (byLastUse calls).filter fun key => (s.mCacheMap key).isSome
  points : ∀ key valueSize it, s.mCacheMap key = some (valueSize, it) → (it, key) ∈ s.mUsed

theorem bookkept_of_counted {calls : List Call} {s : LRUEviction} (h : s.Counted) (hlinked : Linked calls s) :
    Bookkept calls s where
  usage := by
    rw [h, total]
    congr 1
    refine List.map_congr_left fun k hk => ?_
    obtain ⟨⟨valueSize, it⟩, hv⟩ := Option.isSome_iff_exists.mp (hlinked.mem_keys.mp hk)
    rw [sizeOf_of_some hv, hlinked.sizes k valueSize it hv]
    rfl
  once := hlinked.nodup_keys
  listed _ := hlinked.mem_keys
  order := hlinked.order
  points := hlinked.points

/-- As long as no key is overwritten with another size, the books are exact after every call. -/
theorem lru_books_exact (cfg : LRUConfig) (calls : List Call) (hcalls : Meets (step cfg) Steady {} calls) :
    ∃ s, exec (step cfg) {} calls = some s ∧ Bookkept calls s := by
  suffices hgen : ∀ (calls done : List Call) (s : LRUEviction), Linked done s → s.Counted →
      Meets (step cfg) Steady s calls →
      ∃ s', exec (step cfg) s calls = some s' ∧ s'.Counted ∧ Linked (done ++ calls) s' by
    obtain ⟨s, hs, hcounted, hlinked⟩ := hgen calls [] {} linked_start rfl hcalls
    exact ⟨s, hs, bookkept_of_counted hcounted hlinked⟩
  intro calls
  induction calls with
  | nil =>
    intro done s hlinked hcounted _
    exact ⟨s, rfl, hcounted, by rwa [List.append_nil]⟩
  | cons c calls ih =>
    intro done s hlinked hcounted hmeets
    obtain ⟨t, ht, hlinked'⟩ := hlinked.step cfg c
    obtain ⟨hsteady, hrest⟩ := hmeets t ht
    obtain ⟨s', hs', hcounted', hend⟩ := ih (done ++ [c]) t hlinked' (hcounted.step hlinked hsteady ht) hrest
    exact ⟨s', by rw [exec, ht]; exact hs', hcounted', by simpa using hend⟩

def smallCache : LRUConfig := { mOptimal := 10, mMinBatch := 2, mMaxBatch := 4 }

theorem lru_books_of_smallCache :
    ∃ s, exec (step smallCache) {} [.write "a" 3 0, .write "b" 4 0, .read "a", .write "a" 3 0, .write "c" 5 7] =
        some s ∧
      Bookkept [.write "a" 3 0, .write "b" 4 0, .read "a", .write "a" 3 0, .write "c" 5 7] s :=
  lru_books_exact smallCache _ (by decide +kernel)

/-- An overwrite leaves the total as it was; the eviction of the key then takes more off than it holds. -/
theorem lru_usage_wrong :
    (∃ s, exec (step smallCache) {} [.write "a" 1 0, .write "a" 3 0] = some s ∧
      (s.mCurUsage = 1 ∧ s.mCacheMap "a" = some (3, 1))) ∧
    ∃ s, exec (step smallCache) {} [.write "a" 1 0, .write "a" 100 0, .write "b" 20 0] = some s ∧
      s.mCurUsage.toNat = 2 ^ 64 - 99 := by
  refine ⟨exists_exec_of_any (by decide +kernel), exists_exec_of_any (by decide +kernel)⟩

end LRUEviction

end Goblin.Strategy
