import Goblin.Lib.Run
import Goblin.ObjectManager.HashRing

/-! Each shard has one owner: the cluster of the node that is met first on the way back around the ring. -/
namespace Goblin.ObjectManager.HashRing

open Model Lib List

inductive Call where
  | add (clusterId : ClusterIdType) (pMap : Option ShardMap)
  | delete (clusterId : ClusterIdType)
  deriving DecidableEq, Repr

def step (cfg : RingConfig) (ring : HashRing) : Call → Option HashRing
  | .add clusterId pMap => (addClusterId cfg ring clusterId pMap).map Prod.fst
  | .delete clusterId => some (ring.deleteClusterId clusterId)

section Building

variable {cfg : RingConfig} {ring : HashRing} {clusterId : ClusterIdType}

theorem occupied_of_findFree_eq_none {fuel : ℕ} {shard : Fin RING_LENGTH} (h : ring.findFree fuel shard = none) :
    ∀ i < fuel, (shard.1 + i) % RING_LENGTH ∈ ring.entries.map Prod.fst := by
  induction fuel generalizing shard with
  | zero => exact fun i hi => absurd hi (Nat.not_lt_zero i)
  | succ fuel ih =>
    unfold findFree at h
    split_ifs at h with hany
    intro i hi
    cases i with
    | zero =>
      obtain ⟨e, he, hkey⟩ := any_eq_true.mp hany
      rw [Nat.add_zero, Nat.mod_eq_of_lt shard.2, ← of_decide_eq_true hkey]
      exact mem_map_of_mem he
    | succ i =>
      have hnext := ih h i (Nat.lt_of_succ_lt_succ hi)
      rwa [Nat.mod_add_mod, Nat.add_assoc, Nat.add_comm 1] at hnext

theorem exists_findFree (hroom : ring.entries.length < RING_LENGTH) (shard : Fin RING_LENGTH) :
    ∃ free, ring.findFree RING_LENGTH shard = some free := by
  by_contra hnone
  have hnone : ring.findFree RING_LENGTH shard = none := Option.eq_none_iff_forall_ne_some.mpr (not_exists.mp hnone)
  have hall : Finset.range RING_LENGTH ⊆ (ring.entries.map Prod.fst).toFinset := by
    intro s hs
    have hs : s < RING_LENGTH := Finset.mem_range.mp hs
    have hshard := shard.2
    have hreach : (shard.1 + (s + RING_LENGTH - shard.1) % RING_LENGTH) % RING_LENGTH = s := by
      unfold RING_LENGTH at *
      omega
    have hmem := occupied_of_findFree_eq_none hnone _ (Nat.mod_lt (s + RING_LENGTH - shard.1) (by decide))
    rw [hreach] at hmem
    exact mem_toFinset.mpr hmem
  have hcard := (Finset.card_le_card hall).trans (toFinset_card_le _)
  rw [Finset.card_range, length_map] at hcard
  exact absurd hroom (Nat.not_lt.mpr hcard)

theorem length_insertEntry_le (e : ShardIdType × ClusterIdType) (l : List (ShardIdType × ClusterIdType)) :
    (insertEntry e l).length ≤ l.length + 1 := by
  induction l with
  | nil => exact le_rfl
  | cons x l ih =>
    unfold insertEntry
    split_ifs
    · exact le_rfl
    · exact Nat.succ_le_succ ih
    · exact Nat.le_succ _

theorem exists_addNode (cfg : RingConfig) (clusterId : ClusterIdType) {st : HashRing × Option ShardMap}
    (hroom : st.1.entries.length < RING_LENGTH) (i : ℕ) :
    ∃ st', addNode cfg clusterId st i = some st' ∧ st'.1.entries.length ≤ st.1.entries.length + 1 := by
  obtain ⟨shard, hshard⟩ := exists_findFree hroom
    ⟨cfg.mHashFunc (buildKey clusterId i) % RING_LENGTH, Nat.mod_lt _ (by decide)⟩
  have hlength := length_insertEntry_le (shard.1, clusterId) st.1.entries
  unfold addNode calcShard
  rw [hshard, Option.bind_eq_bind, Option.bind_some]
  dsimp only
  split_ifs
  · exact ⟨_, rfl, hlength⟩
  · exact ⟨_, rfl, hlength⟩

theorem exists_foldlM_addNode {is : List ℕ} {st : HashRing × Option ShardMap}
    (hroom : st.1.entries.length + is.length ≤ RING_LENGTH) :
    ∃ st', is.foldlM (addNode cfg clusterId) st = some st' := by
  induction is generalizing st with
  | nil => exact ⟨st, rfl⟩
  | cons i is ih =>
    rw [length_cons] at hroom
    have hfree : st.1.entries.length < RING_LENGTH := by omega
    obtain ⟨st₁, h₁, hlength⟩ := exists_addNode cfg clusterId hfree i
    have hrest : st₁.1.entries.length + is.length ≤ RING_LENGTH := by omega
    obtain ⟨st', h'⟩ := ih hrest
    exact ⟨st', by rw [foldlM_cons, h₁]; exact h'⟩

theorem exists_addClusterId (hroom : ring.entries.length + cfg.virtualNodeCount ≤ RING_LENGTH)
    (clusterId : ClusterIdType) (pMap : Option ShardMap) : ∃ out, addClusterId cfg ring clusterId pMap = some out := by
  unfold addClusterId
  apply exists_foldlM_addNode
  rwa [length_range]

end Building

/-- The ring has room for the virtual nodes of a cluster that is added. -/
def Fits (cfg : RingConfig) (ring : HashRing) : Call → Prop
  | .add _ _ => ring.entries.length + cfg.virtualNodeCount < RING_LENGTH
  | .delete _ => True

instance (cfg : RingConfig) (ring : HashRing) : (c : Call) → Decidable (ring.Fits cfg c)
  | .add _ _ => inferInstanceAs (Decidable (_ < _))
  | .delete _ => isTrue trivial

theorem exists_step {cfg : RingConfig} {ring : HashRing} {c : Call} (h : ring.Fits cfg c) :
    ∃ ring', ring.step cfg c = some ring' := by
  cases c with
  | add clusterId pMap =>
    obtain ⟨out, hout⟩ := exists_addClusterId (Nat.le_of_lt h) clusterId pMap
    exact ⟨out.1, by rw [step, hout]; rfl⟩
  | delete clusterId => exact ⟨_, rfl⟩

/-- Each of the calls fits where it is made. -/
def AllFit (cfg : RingConfig) : HashRing → List Call → Prop
  | _, [] => True
  | ring, c :: calls => ring.Fits cfg c ∧ ∀ ring', ring.step cfg c = some ring' → AllFit cfg ring' calls

instance AllFit.decidable (cfg : RingConfig) : (ring : HashRing) → (calls : List Call) →
    Decidable (AllFit cfg ring calls)
  | _, [] => isTrue trivial
  | ring, c :: calls =>
    match h : ring.step cfg c with
    | none => decidable_of_iff (ring.Fits cfg c)
        ⟨fun hc => ⟨hc, fun _ ht => nomatch h.symm.trans ht⟩, And.left⟩
    | some ring' =>
      have := AllFit.decidable cfg ring' calls
      decidable_of_iff (ring.Fits cfg c ∧ AllFit cfg ring' calls)
        ⟨fun hc => ⟨hc.1, fun _ ht => Option.some.inj (h.symm.trans ht) ▸ hc.2⟩, fun hc => ⟨hc.1, hc.2 ring' h⟩⟩

theorem exists_exec {cfg : RingConfig} {calls : List Call} {ring : HashRing} (h : AllFit cfg ring calls) :
    ∃ ring', exec (step cfg) ring calls = some ring' := by
  induction calls generalizing ring with
  | nil => exact ⟨ring, rfl⟩
  | cons c calls ih =>
    obtain ⟨ring₁, h₁⟩ := exists_step h.1
    obtain ⟨ring', h'⟩ := ih (h.2 ring₁ h₁)
    exact ⟨ring', by rw [exec, h₁]; exact h'⟩

/-- The last node at or before a position, of nodes in the order of their positions. -/
def nodeAt (e : ShardIdType × ClusterIdType) : List (ShardIdType × ClusterIdType) → ℕ → ShardIdType × ClusterIdType
  | [], _ => e
  | e' :: rest, x => if e'.1 ≤ x then nodeAt e' rest x else e

section Owner

variable {e : ShardIdType × ClusterIdType} {rest : List (ShardIdType × ClusterIdType)} {first preKey : ℕ}
  {preClusterId : ClusterIdType}

theorem nodeAt_mem (x : ℕ) : nodeAt e rest x ∈ e :: rest := by
  induction rest generalizing e with
  | nil => exact mem_cons_self
  | cons e' rest ih =>
    unfold nodeAt
    split_ifs
    · exact mem_cons_of_mem e ih
    · exact mem_cons_self

theorem nodeAt_last (hsorted : (e :: rest).Pairwise (·.1 < ·.1)) {x : ℕ} (hx : e.1 ≤ x) :
    (nodeAt e rest x).1 ≤ x ∧ ∀ e' ∈ e :: rest, e'.1 ≤ x → e'.1 ≤ (nodeAt e rest x).1 := by
  induction rest generalizing e with
  | nil =>
    refine ⟨hx, fun e' he' _ => ?_⟩
    rw [mem_singleton.mp he']
    exact le_rfl
  | cons e₁ rest ih =>
    obtain ⟨hbefore, hrest⟩ := pairwise_cons.mp hsorted
    unfold nodeAt
    by_cases hle : e₁.1 ≤ x
    · rw [if_pos hle]
      obtain ⟨hat, hlast⟩ := ih hrest hle
      refine ⟨hat, fun e' he' hx' => ?_⟩
      rcases mem_cons.mp he' with rfl | he'
      · exact (hbefore e₁ mem_cons_self).le.trans (hlast e₁ mem_cons_self hle)
      · exact hlast e' he' hx'
    · rw [if_neg hle]
      refine ⟨hx, fun e' he' hx' => ?_⟩
      rcases mem_cons.mp he' with rfl | he'
      · exact le_rfl
      · -- a later node lies behind `e₁`, which is already past the position
        have hpast : e₁.1 ≤ e'.1 := by
          rcases mem_cons.mp he' with rfl | he'
          · exact le_rfl
          · exact ((pairwise_cons.mp hrest).1 e' he').le
        exact absurd (hpast.trans hx') hle

theorem give_apply (m : ShardConfig) (d c : ClusterIdType) (shards : List ShardIdType) :
    m.give d shards c = m c ++ shards.filter fun _ => d = c := by
  unfold ShardConfig.give
  by_cases h : d = c
  · simp [h]
  · simp [Function.update_of_ne (Ne.symm h), h]

theorem range'_split {a b n : ℕ} (hab : a ≤ b) (hbn : b ≤ n) :
    List.range' a (n - a) = List.range' a (b - a) ++ List.range' b (n - b) := by
  have happend := @range'_append_1 a (b - a) (n - b)
  rw [Nat.add_sub_cancel' hab] at happend
  have hlength : n - a = b - a + (n - b) := by omega
  rw [happend, hlength]

/-- The loop gives each position from `preKey` once around the ring to the last node before it. -/
theorem extractFrom_eq (hsorted : ((preKey, preClusterId) :: rest).Pairwise (·.1 < ·.1))
    (hbounded : ∀ e ∈ (preKey, preClusterId) :: rest, e.1 < RING_LENGTH) (m : ShardConfig) (c : ClusterIdType) :
    extractFrom first preKey preClusterId rest m c =
      m c ++ ((List.range' preKey (first + RING_LENGTH - preKey)).filter
        fun x => (nodeAt (preKey, preClusterId) rest x).2 = c).map (· % RING_LENGTH) := by
  induction rest generalizing preKey preClusterId m with
  | nil =>
    rw [extractFrom, give_apply, filter_map]
    rfl
  | cons cur rest ih =>
    obtain ⟨curKey, curClusterId⟩ := cur
    obtain ⟨hbefore, hrest⟩ := pairwise_cons.mp hsorted
    have hlt : preKey < curKey := hbefore _ mem_cons_self
    have hcur : curKey < RING_LENGTH := hbounded _ (mem_cons_of_mem _ mem_cons_self)
    have hsplit := range'_split hlt.le (hcur.le.trans (Nat.le_add_left RING_LENGTH first))
    have hown : ((List.range' preKey (curKey - preKey)).filter
        fun x => (nodeAt (preKey, preClusterId) ((curKey, curClusterId) :: rest) x).2 = c).map (· % RING_LENGTH) =
        (List.range' preKey (curKey - preKey)).filter fun _ => preClusterId = c := by
      have hnode : ∀ x ∈ List.range' preKey (curKey - preKey),
          decide ((nodeAt (preKey, preClusterId) ((curKey, curClusterId) :: rest) x).2 = c) =
            decide (preClusterId = c) := by
        intro x hx
        have hx : ¬ curKey ≤ x := by
          have hrange := (mem_range'_1.mp hx).2
          rw [Nat.add_sub_cancel' hlt.le] at hrange
          exact Nat.not_le.mpr hrange
        rw [nodeAt, if_neg hx]
      rw [filter_congr hnode]
      refine (map_congr_left fun x hx => ?_).trans (map_id _)
      have hrange := (mem_range'_1.mp (mem_filter.mp hx).1).2
      rw [Nat.add_sub_cancel' hlt.le] at hrange
      exact Nat.mod_eq_of_lt (hrange.trans hcur)
    have hnext : (List.range' curKey (first + RING_LENGTH - curKey)).filter
        (fun x => (nodeAt (preKey, preClusterId) ((curKey, curClusterId) :: rest) x).2 = c) =
        (List.range' curKey (first + RING_LENGTH - curKey)).filter
          fun x => (nodeAt (curKey, curClusterId) rest x).2 = c := by
      refine filter_congr fun x hx => ?_
      rw [nodeAt, if_pos (mem_range'_1.mp hx).1]
    rw [extractFrom, Nat.max_eq_right hlt.le,
      ih hrest (fun e he => hbounded e (mem_cons_of_mem _ he)), give_apply, hsplit, filter_append,
      map_append, hown, hnext, append_assoc]

end Owner

/-- How far a shard is from a position, going forward around the ring. -/
def distance (position shard : ℕ) : ℕ := (shard + RING_LENGTH - position) % RING_LENGTH

/-- The node at or before the shard that is met first on the way back. -/
def Closest (ring : HashRing) (shard : ℕ) (e : ShardIdType × ClusterIdType) : Prop :=
  e ∈ ring.entries ∧ ∀ e' ∈ ring.entries, distance e.1 shard ≤ distance e'.1 shard

section Around

variable {first shard x : ℕ}

theorem mod_eq_iff_of_round (hfirst : first < RING_LENGTH) (hshard : shard < RING_LENGTH) (hlo : first ≤ x)
    (hhi : x < first + RING_LENGTH) : x % RING_LENGTH = shard ↔ x = first + distance first shard := by
  unfold distance RING_LENGTH at *
  omega

theorem distance_le_of_last {p q : ℕ} (hmod : x % RING_LENGTH = shard) (hround : x < first + RING_LENGTH)
    (hp : p < RING_LENGTH) (hq : q < RING_LENGTH) (hfirst : first ≤ p ∧ first ≤ q) (hle : p ≤ x)
    (hlast : q ≤ x → q ≤ p) : distance p shard ≤ distance q shard := by
  unfold distance RING_LENGTH at *
  omega

end Around

section Config

variable {ring : HashRing} {key shard : ℕ} {clusterId : ClusterIdType} {rest : List (ShardIdType × ClusterIdType)}

theorem extractShardConfig_eq (hentries : ring.entries = (key, clusterId) :: rest) (c : ClusterIdType) :
    ring.extractShardConfig c = ((List.range' key RING_LENGTH).filter
      fun x => (nodeAt (key, clusterId) rest x).2 = c).map (· % RING_LENGTH) := by
  unfold extractShardConfig
  rw [hentries]
  dsimp only
  rw [extractFrom_eq (hentries ▸ ring.sorted) (hentries ▸ ring.bounded), Nat.add_sub_cancel_left]
  rfl

theorem closest_nodeAt (hentries : ring.entries = (key, clusterId) :: rest) (hshard : shard < RING_LENGTH) :
    ring.Closest shard (nodeAt (key, clusterId) rest (key + distance key shard)) := by
  have hkey : key < RING_LENGTH := ring.bounded (key, clusterId) (hentries ▸ mem_cons_self)
  have hdistance : distance key shard < RING_LENGTH := Nat.mod_lt _ (by decide)
  have hmod : (key + distance key shard) % RING_LENGTH = shard :=
    (mod_eq_iff_of_round hkey hshard (Nat.le_add_right _ _) (by omega)).mpr rfl
  obtain ⟨hat, hlast⟩ := nodeAt_last (hentries ▸ ring.sorted) (Nat.le_add_right key (distance key shard))
  have hmem : nodeAt (key, clusterId) rest (key + distance key shard) ∈ ring.entries := hentries ▸ nodeAt_mem _
  have hfirst : ∀ e ∈ ring.entries, key ≤ e.1 := by
    intro e he
    rw [hentries] at he
    rcases mem_cons.mp he with rfl | he
    · exact le_rfl
    · exact ((pairwise_cons.mp (hentries ▸ ring.sorted)).1 e he).le
  refine ⟨hmem, fun e' he' => ?_⟩
  exact distance_le_of_last hmod (Nat.add_lt_add_left hdistance key) (ring.bounded _ hmem) (ring.bounded e' he')
    ⟨hfirst _ hmem, hfirst e' he'⟩ hat (hlast e' (hentries ▸ he'))

theorem count_extractShardConfig (hentries : ring.entries = (key, clusterId) :: rest) (hshard : shard < RING_LENGTH)
    (c : ClusterIdType) : (ring.extractShardConfig c).count shard =
      if c = (nodeAt (key, clusterId) rest (key + distance key shard)).2 then 1 else 0 := by
  have hkey : key < RING_LENGTH := ring.bounded (key, clusterId) (hentries ▸ mem_cons_self)
  have hround : ∀ x ∈ List.range' key RING_LENGTH,
      ∀ s < RING_LENGTH, x % RING_LENGTH = s ↔ x = key + distance key s := by
    intro x hx s hs
    obtain ⟨hlo, hhi⟩ := mem_range'_1.mp hx
    exact mod_eq_iff_of_round hkey hs hlo hhi
  have hnodup : (ring.extractShardConfig c).Nodup := by
    rw [extractShardConfig_eq hentries]
    refine List.Nodup.map_on (fun x hx y hy hxy => ?_) ((nodup_range').filter _)
    have hlt : y % RING_LENGTH < RING_LENGTH := Nat.mod_lt _ (by decide)
    rw [(hround x (mem_filter.mp hx).1 _ hlt).mp hxy, ← (hround y (mem_filter.mp hy).1 _ hlt).mp rfl]
  have hmem : shard ∈ ring.extractShardConfig c ↔
      c = (nodeAt (key, clusterId) rest (key + distance key shard)).2 := by
    have hposition : key + distance key shard ∈ List.range' key RING_LENGTH :=
      mem_range'_1.mpr ⟨Nat.le_add_right _ _, Nat.add_lt_add_left (Nat.mod_lt _ (by decide)) key⟩
    rw [extractShardConfig_eq hentries, mem_map]
    constructor
    · rintro ⟨x, hx, hmod⟩
      obtain ⟨hrange, hnode⟩ := mem_filter.mp hx
      rw [← (hround x hrange shard hshard).mp hmod]
      exact (of_decide_eq_true hnode).symm
    · intro hc
      exact ⟨_, mem_filter.mpr ⟨hposition, decide_eq_true hc.symm⟩, (hround _ hposition shard hshard).mpr rfl⟩
  rw [hnodup.count]
  exact if_congr hmem rfl rfl

end Config

/-- A shard of the ring is listed once under the cluster of its closest node and nowhere else. -/
structure Owned (ring : HashRing) : Prop where
  listed : ∀ shard < RING_LENGTH, ∃ e, ring.Closest shard e ∧
    ∀ c, (ring.extractShardConfig c).count shard = if c = e.2 then 1 else 0
  onRing : ∀ c, ∀ shard ∈ ring.extractShardConfig c, shard < RING_LENGTH

theorem owned_of_ne_nil {ring : HashRing} (h : ring.entries ≠ []) : ring.Owned := by
  obtain ⟨⟨key, clusterId⟩, rest, hentries⟩ := exists_cons_of_ne_nil h
  constructor
  · intro shard hshard
    exact ⟨_, closest_nodeAt hentries hshard, count_extractShardConfig hentries hshard⟩
  · intro c shard hmem
    rw [extractShardConfig_eq hentries] at hmem
    obtain ⟨x, _, hx⟩ := mem_map.mp hmem
    rw [← hx]
    exact Nat.mod_lt _ (by decide)

/-- Calls that never bring the ring to as many nodes as it has shards build it, and each shard has one owner
unless the ring is empty. -/
theorem shard_has_one_owner (cfg : RingConfig) (calls : List Call) (hfits : AllFit cfg {} calls) :
    ∃ ring, exec (step cfg) {} calls = some ring ∧ (ring.entries ≠ [] → ring.Owned) := by
  obtain ⟨ring, hring⟩ := exists_exec hfits
  exact ⟨ring, hring, owned_of_ne_nil⟩

/-- All keys collide; two nodes for each cluster. -/
def colliding : RingConfig := { mHashFunc := fun _ => 4095, virtualNodeCount := 2 }

theorem shard_has_one_owner_of_colliding :
    ∃ ring, exec (step colliding) {} [.add 7 none, .add 8 none, .add 9 none, .delete 7] = some ring ∧
      ring.entries = [(1, 8), (2, 8), (3, 9), (4, 9)] ∧ ring.Owned := by
  obtain ⟨ring, hring, howned⟩ := shard_has_one_owner colliding
    [.add 7 none, .add 8 none, .add 9 none, .delete 7] (by decide +kernel)
  cases hring
  exact ⟨_, rfl, rfl, howned (cons_ne_nil _ _)⟩

end Goblin.ObjectManager.HashRing
