import Goblin.Command.Basic
import Goblin.Lib.Optimistic
import Goblin.ObjectManager.HashRing

/-! The registry of clusters as the object manager keeps it in its KV engine. Values are kept decoded;
every transaction of the manager either reads or writes. -/
namespace Goblin.ObjectManager

open Model Lib

abbrev MigrationTaskIdType := ℕ

structure ClusterInfo where
  addr : ClusterAddress
  status : ClusterStatus
  deriving DecidableEq, Repr

structure ClusterSetGlobalInfo where
  routeVersion : ℕ := 0
  clusterIds : List ClusterIdType := []
  currentMaxMigrationTaskId : MigrationTaskIdType := 0
  migrationTaskIds : List MigrationTaskIdType := []
  deriving DecidableEq, Repr

inductive Value
  | globalInfo (info : ClusterSetGlobalInfo)
  | clusterInfo (info : ClusterInfo)
  | migrationTask (task : MigrationTask)
  | clusterId (id : ClusterIdType)
  deriving DecidableEq, Repr

def KEY_CLUSTER_INFO_PREFIX : String := "/kv_manager/cluster_#"
def KEY_MIGRATION_INFO_PREFIX : String := "/kv_manager/migration_#"
def KEY_CLUSTER_GLOBAL_INFO : String := "/kv_manager/global_info"

def NON_VERSION : ℕ := 0
def NON_CLUSTER_ID : ClusterIdType := 0

def buildClusterKey (id : ClusterIdType) : KeyType := KEY_CLUSTER_INFO_PREFIX ++ toString id
def buildMigrationTaskKey (id : MigrationTaskIdType) : KeyType := KEY_MIGRATION_INFO_PREFIX ++ toString id

section Keys

variable {a b : ℕ}

@[simp] theorem buildClusterKey_inj : buildClusterKey a = buildClusterKey b ↔ a = b :=
  ⟨fun h => Nat.repr_injective ((String.append_right_inj _).mp h), fun h => h ▸ rfl⟩

@[simp] theorem buildMigrationTaskKey_inj : buildMigrationTaskKey a = buildMigrationTaskKey b ↔ a = b :=
  ⟨fun h => Nat.repr_injective ((String.append_right_inj _).mp h), fun h => h ▸ rfl⟩

@[simp] theorem buildClusterKey_ne_global : buildClusterKey a ≠ KEY_CLUSTER_GLOBAL_INFO := by
  intro h
  have := congrArg String.toList h
  simp [buildClusterKey, KEY_CLUSTER_INFO_PREFIX, KEY_CLUSTER_GLOBAL_INFO] at this

@[simp] theorem buildMigrationTaskKey_ne_global : buildMigrationTaskKey a ≠ KEY_CLUSTER_GLOBAL_INFO := by
  intro h
  have := congrArg String.toList h
  simp [buildMigrationTaskKey, KEY_MIGRATION_INFO_PREFIX, KEY_CLUSTER_GLOBAL_INFO] at this

@[simp] theorem buildClusterKey_ne_migration : buildClusterKey a ≠ buildMigrationTaskKey b := by
  intro h
  have := congrArg String.toList h
  simp [buildMigrationTaskKey, buildClusterKey, KEY_MIGRATION_INFO_PREFIX, KEY_CLUSTER_INFO_PREFIX] at this

end Keys

/-- A value and the version of its write. -/
abbrev Cell := Value × ℕ

/-- Every transaction that writes gets a version of its own, which all its writes share. -/
structure KVStore where
  cells : KeyType → Option Cell := fun _ => none
  clock : ℕ := 0
  bounded : ∀ key cell, cells key = some cell → 0 < cell.2 ∧ cell.2 ≤ clock := by simp

inductive Precond
  | version (key : KeyType) (version : ℕ)
  | exist (key : KeyType) (shouldExist : Bool)
  deriving DecidableEq, Repr

namespace KVStore

def holds (s : KVStore) : Precond → Bool
  | .version key version => (s.cells key).any (·.2 = version)
  | .exist key shouldExist => (s.cells key).isSome == shouldExist

def put (version : ℕ) (cells : KeyType → Option Cell) (w : KeyType × Value) : KeyType → Option Cell :=
  Function.update cells w.1 (some (w.2, version))

theorem putAll_cases {version : ℕ} {cells : KeyType → Option Cell} {writes : List (KeyType × Value)}
    {key : KeyType} {cell : Cell} (h : writes.foldl (put version) cells key = some cell) :
    cells key = some cell ∨ cell.2 = version := by
  induction writes generalizing cells with
  | nil => exact .inl h
  | cons w writes ih =>
    obtain hput | hversion := ih h
    · by_cases hkey : key = w.1
      · subst hkey
        obtain rfl : (w.2, version) = cell := by simpa [put] using hput
        exact .inr rfl
      · exact .inl (by simpa [put, hkey] using hput)
    · exact .inr hversion

def write (s : KVStore) (writes : List (KeyType × Value)) : KVStore where
  cells := writes.foldl (put (s.clock + 1)) s.cells
  clock := s.clock + 1
  bounded key cell h := by
    obtain h | h := putAll_cases h
    · exact ⟨(s.bounded key cell h).1, (s.bounded key cell h).2.trans (Nat.le_succ _)⟩
    · rw [h]
      exact ⟨Nat.succ_pos _, le_rfl⟩

section Write

variable {s : KVStore} {key : KeyType} {value : Value} {writes : List (KeyType × Value)}

theorem cells_write_append (key' : KeyType) : (s.write (writes ++ [(key, value)])).cells key' =
    if key' = key then some (value, s.clock + 1) else (s.write writes).cells key' := by
  by_cases h : key' = key
  · subst h
    simp [write, put]
  · simp [write, put, h]

theorem cells_write_singleton (key' : KeyType) : (s.write [(key, value)]).cells key' =
    if key' = key then some (value, s.clock + 1) else s.cells key' := by
  by_cases h : key' = key <;> simp [write, put, h]

theorem cells_write_last : (s.write (writes ++ [(key, value)])).cells key = some (value, s.clock + 1) := by
  rw [cells_write_append, if_pos rfl]

end Write

end KVStore

/-- The calls of the manager: `get`, one entry of an `exeBatch`, and `trans` with entries that all read or
all write. -/
inductive KVOp
  | get (key : KeyType)
  | transRead (preconds : List Precond) (keys : List KeyType)
  | transWrite (preconds : List Precond) (writes : List (KeyType × Value))

/-- A transaction whose preconditions do not hold answers `none` or `false`. -/
def KVRes : KVOp → Type
  | .get _ => Option Cell
  | .transRead _ _ => Option (List (Option Cell))
  | .transWrite _ _ => Bool

def KVStore.answer (s : KVStore) : (o : KVOp) → KVRes o × KVStore
  | .get key => (s.cells key, s)
  | .transRead preconds keys => (if preconds.all s.holds then some (keys.map s.cells) else none, s)
  | .transWrite preconds writes => if preconds.all s.holds then (true, s.write writes) else (false, s)

abbrev KVProg := Program KVOp KVRes

namespace KVEngine

def get (key : KeyType) : KVProg (Option Cell) := .call (.get key) .ret

def transRead (preconds : List Precond) (keys : List KeyType) : KVProg (Option (List (Option Cell))) :=
  .call (.transRead preconds keys) .ret

def transWrite (preconds : List Precond) (writes : List (KeyType × Value)) : KVProg Bool :=
  .call (.transWrite preconds writes) .ret

/-- A batch of reads is not a transaction: others may write between two of them. -/
def exeBatch : List KeyType → KVProg (List (Option Cell))
  | [] => .ret []
  | key :: keys => do
    let cell ← get key
    let cells ← exeBatch keys
    return cell :: cells

end KVEngine

/-- The version of the global info, which every transaction that writes raises. -/
def KVStore.stamp (s : KVStore) : ℕ :=
  ((s.cells KEY_CLUSTER_GLOBAL_INFO).map Prod.snd).getD NON_VERSION

end Goblin.ObjectManager
