import Goblin.ObjectStore.PreExecute
import Goblin.Store.Segments

/-! The working sets of the object store: the cache behind them is one store to its callers. -/
namespace Goblin.ObjectStore

open Model Lib Store

def kWorkingSetFactor : ℕ := 4

def kWorkingSetNamePrefix : String := "cf_for_app"

def shardIdToColumnFamily (prefixCFName : String) (shardId : ShardIdType) (factor : ℕ) : WSName :=
  let wsId := shardId &&& ((1 <<< factor) - 1)
  prefixCFName ++ toString wsId

/-- The working sets that `ObjectStore::ObjectStore` creates. -/
def allWS : List WSName :=
  (List.range (1 <<< kWorkingSetFactor)).map fun i => kWorkingSetNamePrefix ++ toString i

def wsLookupFunc (key : KeyType) : WSName :=
  shardIdToColumnFamily kWorkingSetNamePrefix (keyToShardId key) kWorkingSetFactor

theorem nodup_allWS : allWS.Nodup := by decide

theorem shardIdToColumnFamily_mem (shardId : ShardIdType) :
    shardIdToColumnFamily kWorkingSetNamePrefix shardId kWorkingSetFactor ∈ allWS := by
  refine List.mem_map.mpr ⟨shardId &&& ((1 <<< kWorkingSetFactor) - 1), List.mem_range.mpr ?_, rfl⟩
  have hle : shardId &&& ((1 <<< kWorkingSetFactor) - 1) ≤ (1 <<< kWorkingSetFactor) - 1 :=
    Nat.and_le_right
  exact Nat.lt_of_le_of_lt hle (by decide)

theorem wsLookupFunc_mem (key : KeyType) : wsLookupFunc key ∈ allWS :=
  shardIdToColumnFamily_mem _

/-- The cache of the object store answers every sequence of calls as one `InMemoryKVStore` would, with the
same events for the cache eviction, and holds for every key what that store would hold. -/
theorem working_sets_eq_plain (mHashFunc : KeyType → UInt64) (calls : List TimedCall) :
    (∀ key, wsLookupFunc key ∈ allWS) ∧
    ∃ start, WSConcurInMemoryKVStore.init allWS = some start ∧
    ∃ answers cache plain,
      WSConcurInMemoryKVStore.serveAll wsLookupFunc mHashFunc calls start = some (answers, cache) ∧
      InMemoryKVStore.serveAll calls {} = some (answers, plain) ∧
      ∀ key, ∃ segments bucket, cache (wsLookupFunc key) = some segments ∧
        segments (ConcurInMemoryKVStore.calculateSegmentIndex mHashFunc key) = some bucket ∧
        bucket.slot key = plain.slot key := by
  refine ⟨wsLookupFunc_mem, _, WSConcurInMemoryKVStore.init_of_nodup nodup_allWS, ?_⟩
  obtain ⟨answers, cache, plain, hcache, hplain, halike⟩ :=
    WSConcurInMemoryKVStore.simulates_serveAll calls _ _
      (WSConcurInMemoryKVStore.alike_fresh mHashFunc wsLookupFunc_mem)
  refine ⟨answers, cache, plain, hcache, hplain, fun key => ?_⟩
  obtain ⟨segments, hsegments, hok⟩ := halike.left key
  obtain ⟨bucket, hbucket, -⟩ := hok key
  refine ⟨segments, bucket, hsegments, hbucket, ?_⟩
  have hline := halike.lines key
  rwa [WSConcurInMemoryKVStore.view, line_shardView hsegments, ConcurInMemoryKVStore.view,
    line_shardView hbucket] at hline

end Goblin.ObjectStore
