import Goblin.Model.Route

/-! `HashRing`: the clusters' virtual nodes on a ring of 4096 shards, and the shards between them. -/
namespace Goblin.ObjectManager

open Model List

abbrev ClusterIdType := ℕ

def RING_LENGTH : ℕ := 4096

/-- `std::hash` and the number of virtual nodes that the environment asks for. -/
structure RingConfig where
  mHashFunc : String → ℕ
  virtualNodeCount : ℕ := 1
  virtualNodeCount_pos : 0 < virtualNodeCount := by decide

theorem sorted_nil : ([] : List (ShardIdType × ClusterIdType)).Pairwise (·.1 < ·.1) := .nil

theorem bounded_nil : ∀ e ∈ ([] : List (ShardIdType × ClusterIdType)), e.1 < RING_LENGTH := by simp

/-- `clusterRingMap` in the order of its keys. -/
structure HashRing where
  entries : List (ShardIdType × ClusterIdType) := []
  sorted : entries.Pairwise (·.1 < ·.1) := by exact sorted_nil
  bounded : ∀ e ∈ entries, e.1 < RING_LENGTH := by exact bounded_nil

/-- A map from clusters to shards that knows which clusters it has. -/
abbrev ShardMap := List (ClusterIdType × List ShardIdType)

def ShardMap.touch (m : ShardMap) (c : ClusterIdType) : ShardMap :=
  if m.any (·.1 = c) then m else m ++ [(c, [])]

def ShardMap.push (m : ShardMap) (c : ClusterIdType) (shard : ShardIdType) : ShardMap :=
  (m.touch c).map fun e => if e.1 = c then (e.1, e.2 ++ [shard]) else e

namespace HashRing

def insertEntry (e : ShardIdType × ClusterIdType) :
    List (ShardIdType × ClusterIdType) → List (ShardIdType × ClusterIdType)
  | [] => [e]
  | x :: xs =>
    if e.1 < x.1 then e :: x :: xs
    else if x.1 < e.1 then x :: insertEntry e xs
    else x :: xs

theorem mem_insertEntry {e x : ShardIdType × ClusterIdType} {l : List (ShardIdType × ClusterIdType)}
    (h : x ∈ insertEntry e l) : x = e ∨ x ∈ l := by
  induction l with
  | nil => simpa [insertEntry] using h
  | cons y l ih =>
    simp only [insertEntry] at h
    split_ifs at h
    · simpa using h
    · rcases mem_cons.mp h with rfl | h
      · simp
      · exact (ih h).imp_right (mem_cons_of_mem y)
    · exact .inr h

theorem sorted_insertEntry (e : ShardIdType × ClusterIdType) {l : List (ShardIdType × ClusterIdType)}
    (h : l.Pairwise (·.1 < ·.1)) : (insertEntry e l).Pairwise (·.1 < ·.1) := by
  induction l with
  | nil => simp [insertEntry]
  | cons y l ih =>
    obtain ⟨hy, hl⟩ := pairwise_cons.mp h
    simp only [insertEntry]
    split_ifs with h₁ h₂
    · refine pairwise_cons.mpr ⟨fun x hx => ?_, h⟩
      rcases mem_cons.mp hx with rfl | hx
      · exact h₁
      · exact lt_trans h₁ (hy x hx)
    · refine pairwise_cons.mpr ⟨fun x hx => ?_, ih hl⟩
      rcases mem_insertEntry hx with rfl | hx
      · exact h₂
      · exact hy x hx
    · exact h

/-- `none` if the search goes around the whole ring, which the source does for ever. -/
def findFree (ring : HashRing) : ℕ → Fin RING_LENGTH → Option (Fin RING_LENGTH)
  | 0, _ => none
  | fuel + 1, shard =>
    if ring.entries.any (·.1 = shard.1) then
      findFree ring fuel ⟨(shard.1 + 1) % RING_LENGTH, Nat.mod_lt _ (by decide)⟩
    else some shard

def calcShard (cfg : RingConfig) (ring : HashRing) (key : String) : Option (Fin RING_LENGTH) :=
  ring.findFree RING_LENGTH ⟨cfg.mHashFunc key % RING_LENGTH, Nat.mod_lt _ (by decide)⟩

def buildKey (clusterId : ClusterIdType) (order : ℕ) : String :=
  if order > 0 then toString clusterId ++ "#" ++ toString order else toString clusterId

def insert (ring : HashRing) (shard : Fin RING_LENGTH) (clusterId : ClusterIdType) : HashRing where
  entries := insertEntry (shard.1, clusterId) ring.entries
  sorted := sorted_insertEntry _ ring.sorted
  bounded e he := by
    rcases mem_insertEntry he with rfl | he
    · exact shard.2
    · exact ring.bounded e he

/-- The shards from a new node to the next one are taken from the cluster before it. -/
def takeShards (ring : HashRing) (clusterId : ClusterIdType) (shard : ShardIdType) (m : ShardMap) :
    ShardMap :=
  match ((ring.entries.filter (·.1 < shard)).getLast?).or ring.entries.getLast?,
    (ring.entries.find? (shard < ·.1)).or ring.entries.head? with
  | some it, some iter =>
    let m := if it.2 ≠ clusterId ∧ !m.any (·.1 = clusterId) then m.touch it.2 else m
    let endShard := if iter.1 < shard then iter.1 + RING_LENGTH else iter.1
    (List.range' shard (endShard - shard)).foldl (fun m start => m.push it.2 (start % RING_LENGTH)) m
  | _, _ => m

/-- One turn of the loop of `addClusterId`. -/
def addNode (cfg : RingConfig) (clusterId : ClusterIdType) (st : HashRing × Option ShardMap) (i : ℕ) :
    Option (HashRing × Option ShardMap) := do
  let shard ← st.1.calcShard cfg (buildKey clusterId i)
  let ring := st.1.insert shard clusterId
  if ring.entries.length ≤ cfg.virtualNodeCount then return (ring, st.2)
  else return (ring, st.2.map (ring.takeShards clusterId shard.1))

def addClusterId (cfg : RingConfig) (ring : HashRing) (clusterId : ClusterIdType)
    (pMap : Option ShardMap := none) : Option (HashRing × Option ShardMap) :=
  (List.range cfg.virtualNodeCount).foldlM (addNode cfg clusterId) (ring, pMap)

def deleteClusterId (ring : HashRing) (clusterId : ClusterIdType) : HashRing where
  entries := ring.entries.filter (·.2 ≠ clusterId)
  sorted := ring.sorted.filter _
  bounded e he := ring.bounded e (mem_filter.mp he).1

abbrev ShardConfig := ClusterIdType → List ShardIdType

def ShardConfig.give (m : ShardConfig) (clusterId : ClusterIdType) (shards : List ShardIdType) : ShardConfig :=
  Function.update m clusterId (m clusterId ++ shards)

/-- From the node `preClusterId` at `preKey` on; the last node also has the shards before the first. -/
def extractFrom (first : ShardIdType) : ShardIdType → ClusterIdType →
    List (ShardIdType × ClusterIdType) → ShardConfig → ShardConfig
  | preKey, preClusterId, [], m =>
    m.give preClusterId ((List.range' preKey (first + RING_LENGTH - preKey)).map (· % RING_LENGTH))
  | preKey, preClusterId, (curKey, curClusterId) :: rest, m =>
    extractFrom first (max preKey curKey) curClusterId rest
      (m.give preClusterId (List.range' preKey (curKey - preKey)))

def extractShardConfig (ring : HashRing) : ShardConfig :=
  match ring.entries with
  | [] => fun _ => []
  | (key, clusterId) :: rest => extractFrom key key clusterId rest fun _ => []

section Nodes

variable {cfg : RingConfig} {ring ring' : HashRing} {clusterId : ClusterIdType}

theorem mem_insertEntry_of_mem {e x : ShardIdType × ClusterIdType}
    {l : List (ShardIdType × ClusterIdType)} (h : x ∈ l) : x ∈ insertEntry e l := by
  induction l with
  | nil => simp at h
  | cons y l ih =>
    simp only [insertEntry]
    split_ifs
    · exact mem_cons_of_mem e h
    · rcases mem_cons.mp h with rfl | h
      · exact mem_cons_self
      · exact mem_cons_of_mem y (ih h)
    · exact h

theorem mem_insertEntry_self {e : ShardIdType × ClusterIdType} {l : List (ShardIdType × ClusterIdType)}
    (h : ∀ x ∈ l, x.1 ≠ e.1) : e ∈ insertEntry e l := by
  induction l with
  | nil => exact mem_singleton_self e
  | cons y l ih =>
    simp only [insertEntry]
    split_ifs with h₁ h₂
    · exact mem_cons_self
    · exact mem_cons_of_mem y (ih fun x hx => h x (mem_cons_of_mem y hx))
    · exact absurd (Nat.le_antisymm (Nat.le_of_not_lt h₁) (Nat.le_of_not_lt h₂)) (h y mem_cons_self)

theorem findFree_free {fuel : ℕ} {shard free : Fin RING_LENGTH}
    (h : ring.findFree fuel shard = some free) : ∀ e ∈ ring.entries, e.1 ≠ free.1 := by
  induction fuel generalizing shard with
  | zero => cases h
  | succ fuel ih =>
    simp only [findFree] at h
    split_ifs at h with hfree
    · exact ih h
    · cases h
      intro e he hkey
      exact hfree (any_eq_true.mpr ⟨e, he, decide_eq_true hkey⟩)

theorem addNode_entries {st st' : HashRing × Option ShardMap} {i : ℕ}
    (h : addNode cfg clusterId st i = some st') :
    (∀ e ∈ st.1.entries, e ∈ st'.1.entries) ∧ ∃ e ∈ st'.1.entries, e.2 = clusterId := by
  obtain ⟨shard, hshard, h⟩ := Option.bind_eq_some_iff.mp h
  have hring : st'.1 = st.1.insert shard clusterId := by
    dsimp only at h
    split_ifs at h <;> cases h <;> rfl
  rw [hring]
  exact ⟨fun e he => mem_insertEntry_of_mem he, _, mem_insertEntry_self (findFree_free hshard), rfl⟩

theorem foldlM_addNode_entries {st st' : HashRing × Option ShardMap} {is : List ℕ}
    (h : is.foldlM (addNode cfg clusterId) st = some st') : ∀ e ∈ st.1.entries, e ∈ st'.1.entries := by
  induction is generalizing st with
  | nil =>
    cases h
    exact fun e he => he
  | cons i is ih =>
    rw [foldlM_cons] at h
    obtain ⟨st₁, h₁, h₂⟩ := Option.bind_eq_some_iff.mp h
    exact fun e he => ih h₂ e ((addNode_entries h₁).1 e he)

theorem addClusterId_entries {pMap : Option ShardMap} {out : HashRing × Option ShardMap}
    (h : addClusterId cfg ring clusterId pMap = some out) :
    (∀ e ∈ ring.entries, e ∈ out.1.entries) ∧ ∃ e ∈ out.1.entries, e.2 = clusterId := by
  refine ⟨foldlM_addNode_entries h, ?_⟩
  obtain ⟨n, hn⟩ := Nat.exists_eq_add_one_of_ne_zero cfg.virtualNodeCount_pos.ne'
  unfold addClusterId at h
  rw [hn, range_succ_eq_map, foldlM_cons] at h
  obtain ⟨st₁, h₁, h₂⟩ := Option.bind_eq_some_iff.mp h
  obtain ⟨e, he, hid⟩ := (addNode_entries h₁).2
  exact ⟨e, foldlM_addNode_entries h₂ e he, hid⟩

theorem subset_extractFrom {first preKey : ShardIdType} {preClusterId : ClusterIdType}
    {rest : List (ShardIdType × ClusterIdType)} {m : ShardConfig} {c : ClusterIdType} :
    ∀ s ∈ m c, s ∈ extractFrom first preKey preClusterId rest m c := by
  have hgive {m : ShardConfig} {d : ClusterIdType} {shards : List ShardIdType} :
      ∀ s ∈ m c, s ∈ m.give d shards c := by
    intro s hs
    by_cases hd : c = d
    · subst hd
      simp [ShardConfig.give, hs]
    · simpa [ShardConfig.give, hd] using hs
  induction rest generalizing preKey preClusterId m with
  | nil => exact hgive
  | cons e rest ih => exact fun s hs => ih s (hgive s hs)

theorem mem_extractFrom {first preKey : ShardIdType} {preClusterId : ClusterIdType}
    {rest : List (ShardIdType × ClusterIdType)} {m : ShardConfig}
    (hsorted : ((preKey, preClusterId) :: rest).Pairwise (·.1 < ·.1))
    (hbounded : ∀ e ∈ (preKey, preClusterId) :: rest, e.1 < RING_LENGTH)
    {e : ShardIdType × ClusterIdType} (he : e ∈ (preKey, preClusterId) :: rest) :
    e.1 ∈ extractFrom first preKey preClusterId rest m e.2 := by
  induction rest generalizing preKey preClusterId m with
  | nil =>
    obtain rfl := mem_singleton.mp he
    have hlt : preKey < RING_LENGTH := hbounded (preKey, preClusterId) mem_cons_self
    have hrange : preKey ∈ List.range' preKey (first + RING_LENGTH - preKey) :=
      mem_range'_1.mpr ⟨le_rfl, Nat.lt_add_of_pos_right (Nat.sub_pos_of_lt (Nat.lt_add_left first hlt))⟩
    have hmem : preKey ∈ (List.range' preKey (first + RING_LENGTH - preKey)).map (· % RING_LENGTH) :=
      mem_map.mpr ⟨preKey, hrange, Nat.mod_eq_of_lt hlt⟩
    simp [extractFrom, ShardConfig.give, hmem]
  | cons cur rest ih =>
    obtain ⟨curKey, curClusterId⟩ := cur
    obtain ⟨hpre, hrest⟩ := pairwise_cons.mp hsorted
    have hlt : preKey < curKey := hpre _ mem_cons_self
    simp only [extractFrom, Nat.max_eq_right hlt.le]
    rcases mem_cons.mp he with rfl | he
    · refine subset_extractFrom _ ?_
      simp [ShardConfig.give, Nat.sub_pos_of_lt hlt]
    · exact ih hrest (fun e he => hbounded e (mem_cons_of_mem _ he)) he

theorem mem_extractShardConfig {e : ShardIdType × ClusterIdType} (he : e ∈ ring.entries) :
    e.1 ∈ ring.extractShardConfig e.2 := by
  unfold extractShardConfig
  match hentries : ring.entries with
  | [] => simp [hentries] at he
  | (key, id) :: rest =>
    exact mem_extractFrom (hentries ▸ ring.sorted) (hentries ▸ ring.bounded) (hentries ▸ he)

end Nodes

end HashRing

end Goblin.ObjectManager
