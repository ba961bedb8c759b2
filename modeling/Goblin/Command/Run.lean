import Goblin.Command.Locking
import Goblin.Store.CacheLine

/-! Store programs run against one state of the stores, without other commands in between. -/
namespace Goblin.Model

open Store

/-- No cell of the keys has timed out, so that no read erases anything. -/
def Stores.Unexpired (s : Stores) (keys : List KeyType) : Prop :=
  ∀ key ∈ keys, ∀ c, s.mem.mData key = some c → isTimeOut s.now c.deadline c.ttl = false

section Answers

variable {s t : Stores} {key : KeyType} {keys : List KeyType} {out : ReadOut}

def Stores.readKV (s : Stores) (key : KeyType) : Status × ReadOut :=
  (s.mem.readKV s.db s.now key {}).1

def Stores.readMeta (s : Stores) (key : KeyType) : Status × Meta :=
  s.mem.readMeta s.db key

@[simp] theorem run_readMeta :
    (readMeta key).run Stores.answer s = some (s.readMeta key, s) := rfl

@[simp] theorem run_secondsSinceEpoch :
    secondsSinceEpoch.run Stores.answer s = some (s.now, s) := rfl

end Answers

end Goblin.Model
