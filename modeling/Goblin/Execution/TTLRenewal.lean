import Goblin.Execution.TimeToLive
import Goblin.Store.Expiry

/-! Writes that take over a ttl: the record they take it from, after any history of the cache. -/
namespace Goblin.Store

open Model Lib Option

namespace TimedCache

def stores (s : TimedCache) : Stores := ⟨s.mem, s.db, s.now⟩

/-- What `readKV` answers with. -/
def found (s : TimedCache) (key : KeyType) : Option Cell := visible s.now ((s.mem.line key).read (s.db.cell key))

section Lending

variable {s : TimedCache} {key : KeyType}

end Lending

/-- The state after reads of some keys. -/
def AfterReads (s t : TimedCache) : Prop := ∃ keys : List KeyType, exec step s (keys.map .read) = some t

section Reads

variable {s t : TimedCache}

theorem AfterReads.refl (s : TimedCache) : AfterReads s s := ⟨[], rfl⟩

theorem AfterReads.read (h : AfterReads s t) (key : KeyType) (out : ReadOut) :
    AfterReads s { t with mem := (t.mem.readKV t.db t.now key out).2 } := by
  obtain ⟨keys, hkeys⟩ := h
  have hout : (t.mem.readKV t.db t.now key out).2 = (t.mem.readKV t.db t.now key {}).2 := by
    unfold InMemoryKVStore.readKV
    split
    · split <;> rfl
    · split_ifs <;> rfl
  refine ⟨keys ++ [key], ?_⟩
  rw [List.map_append, hout]
  exact exec_snoc hkeys rfl

theorem AfterReads.frame (h : AfterReads s t) : t = { s with mem := t.mem } := by
  obtain ⟨keys, hkeys⟩ := h
  induction keys generalizing s with
  | nil =>
    cases hkeys
    rfl
  | cons key keys ih =>
    obtain ⟨u, hu, hrest⟩ := exec_cons hkeys
    cases hu
    have hframe := ih hrest
    exact hframe

end Reads

end TimedCache

end Goblin.Store

namespace Goblin.Execution

open Model Store Lib Option

end Goblin.Execution
