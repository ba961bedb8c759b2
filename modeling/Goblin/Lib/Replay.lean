import Mathlib

/-! Replaying a log of keyed updates on a partial map, and a cache line in front of a store that
lags behind the log. -/
namespace Goblin.Lib

open List

variable {E K V : Type*} [DecidableEq K] (effect : E → Option (K × Option V))

/-- An event sets one key to a value, erases one key, or has no effect. -/
def applyEffect (m : K → Option V) (e : E) : K → Option V :=
  match effect e with
  | none => m
  | some (k, v) => Function.update m k v

def replayOn (m : K → Option V) (es : List E) : K → Option V :=
  es.foldl (applyEffect effect) m

/-- The event sets or erases the key. -/
def Touches (k : K) (e : E) : Prop := ∃ v, effect e = some (k, v)

@[simp] theorem replayOn_nil (m : K → Option V) : replayOn effect m [] = m := rfl

theorem replayOn_append (m : K → Option V) (es fs : List E) :
    replayOn effect m (es ++ fs) = replayOn effect (replayOn effect m es) fs :=
  foldl_append

theorem applyEffect_of_not_touches {m : K → Option V} {k : K} {e : E} (h : ¬ Touches effect k e) :
    applyEffect effect m e k = m k := by
  cases he : effect e with
  | none => simp [applyEffect, he]
  | some w =>
    have hk : k ≠ w.1 := by
      rintro rfl
      exact h ⟨w.2, he⟩
    simp [applyEffect, he, hk]

/-- The values that the events give to the key, in order. -/
def sets (k : K) (es : List E) : List (Option V) :=
  es.filterMap fun e => (effect e).bind fun w => if w.1 = k then some w.2 else none

theorem sets_append (k : K) (es fs : List E) :
    sets effect k (es ++ fs) = sets effect k es ++ sets effect k fs :=
  filterMap_append

theorem mem_sets {k : K} {es : List E} {v : Option V} :
    v ∈ sets effect k es ↔ ∃ e ∈ es, effect e = some (k, v) := by
  simp only [sets, mem_filterMap, Option.bind_eq_some_iff]
  constructor
  · rintro ⟨e, he, ⟨k', v'⟩, hw, hv⟩
    split_ifs at hv with hk
    cases hk
    cases hv
    exact ⟨e, he, hw⟩
  · rintro ⟨e, he, hw⟩
    exact ⟨e, he, (k, v), hw, by simp⟩

theorem replayOn_eq_getLastD (m : K → Option V) (k : K) (es : List E) :
    replayOn effect m es k = (sets effect k es).getLastD (m k) := by
  induction es generalizing m with
  | nil => rfl
  | cons e es ih =>
    have hcons : replayOn effect m (e :: es) k = replayOn effect (applyEffect effect m e) es k := rfl
    rw [hcons, ih]
    cases he : effect e with
    | none => simp [sets, applyEffect, he]
    | some w =>
      by_cases hk : w.1 = k
      · subst hk
        have hs : sets effect w.1 (e :: es) = w.2 :: sets effect w.1 es := by simp [sets, he]
        rw [hs, getLastD_cons]
        simp [applyEffect, he]
      · simp [sets, applyEffect, he, hk, Ne.symm hk]

/-- A value found after a replay was there before, and is left alone, or comes from one of the events. -/
theorem not_touches_or_exists_of_replayOn {m : K → Option V} {k : K} {es : List E} {v : V}
    (h : replayOn effect m es k = some v) :
    (m k = some v ∧ ∀ e ∈ es, ¬ Touches effect k e) ∨ ∃ e ∈ es, effect e = some (k, some v) := by
  rw [replayOn_eq_getLastD] at h
  rcases eq_nil_or_concat (sets effect k es) with hs | ⟨vs, w, hs⟩
  · left
    refine ⟨by simpa [hs] using h, fun e he ⟨w, hw⟩ => ?_⟩
    have hmem : w ∈ sets effect k es := (mem_sets effect).mpr ⟨e, he, hw⟩
    rw [hs] at hmem
    cases hmem
  · right
    have hw : w = some v := by simpa [hs] using h
    exact (mem_sets effect).mp (by simp [hs, hw])

theorem exists_of_replayOn_eq_some {m : K → Option V} {k : K} {es : List E} {v : V}
    (h : replayOn effect m es k = some v) : m k = some v ∨ ∃ e ∈ es, effect e = some (k, some v) :=
  (not_touches_or_exists_of_replayOn effect h).imp_left And.left

/-- Replaying is idempotent: if what is left of a log leads to the state that the whole log leads to,
then so does a longer part of it, whatever was replayed before. -/
theorem replayOn_rewind {m c : K → Option V} {zs xs ys : List E}
    (h : replayOn effect c ys = replayOn effect m (zs ++ (xs ++ ys))) :
    replayOn effect c (xs ++ ys) = replayOn effect m (zs ++ (xs ++ ys)) := by
  funext k
  have hk := congrFun h k
  simp only [replayOn_eq_getLastD, sets_append] at hk ⊢
  rcases eq_nil_or_concat (sets effect k ys) with hys | ⟨vs, v, hys⟩
  · rw [hys] at hk ⊢
    rcases eq_nil_or_concat (sets effect k xs) with hxs | ⟨us, u, hxs⟩
    · simpa [hxs] using hk
    · simp [hxs, ← append_assoc]
  · simp [hys, ← append_assoc]

/-- A cache line holds nothing, a live value, or the mark of a deletion. -/
inductive Line (V : Type*)
  | miss
  | live (v : V)
  | dead

/-- What a read through the line returns when the store behind it holds `backing`. -/
def Line.read (backing : Option V) : Line V → Option V
  | .miss => backing
  | .live v => some v
  | .dead => none

/-- A deletion that marks only lines which hold something. -/
def Line.delete : Line V → Line V
  | .miss => .miss
  | .live _ => .dead
  | .dead => .dead

def Line.evict (p : V → Bool) : Line V → Line V
  | .miss => .miss
  | .live v => if p v then .miss else .live v
  | .dead => .dead

theorem Line.evict_evict (p : V → Bool) (l : Line V) : (l.evict p).evict p = l.evict p := by
  cases l with
  | miss => rfl
  | live v => by_cases hv : p v <;> simp [Line.evict, hv]
  | dead => rfl

def Line.apply (l : Line V) : Option V → Line V
  | some v => .live v
  | none => l.delete

theorem Line.foldl_apply_eq_miss {l : Line V} {vs : List (Option V)} :
    vs.foldl Line.apply l = .miss ↔ l = .miss ∧ ∀ v ∈ vs, v = none := by
  induction vs generalizing l with
  | nil => simp
  | cons v vs ih =>
    rw [foldl_cons, ih]
    cases v <;> cases l <;> simp [Line.apply, Line.delete]

theorem Line.some_mem_of_foldl_apply_eq_live {l : Line V} {vs : List (Option V)} {v : V}
    (h : vs.foldl Line.apply l = .live v) (hvs : vs ≠ []) : some v ∈ vs := by
  obtain ⟨us, u, rfl⟩ := (eq_nil_or_concat vs).resolve_left hvs
  rw [concat_eq_append, foldl_append] at h
  cases u with
  | some u =>
    cases h
    simp
  | none =>
    change (us.foldl Line.apply l).delete = .live v at h
    cases hl : us.foldl Line.apply l <;> simp [hl, Line.delete] at h

theorem Line.eq_live_of_evict_eq_live {p : V → Bool} {l : Line V} {v : V}
    (h : l.evict p = .live v) : l = .live v := by
  cases l with
  | miss => cases h
  | live u =>
    by_cases hu : p u
    · simp [Line.evict, hu] at h
    · simpa [Line.evict, hu] using h
  | dead => cases h

/-- The line answers with the last value set, except when deletions are all that reaches a line
which holds nothing. -/
theorem Line.read_foldl_apply_iff {l : Line V} {b : Option V} {vs : List (Option V)} :
    (vs.foldl Line.apply l).read b = vs.getLastD (l.read b) ↔
      (l = .miss → vs ≠ [] → (∀ v ∈ vs, v = none) → b = none) := by
  induction vs using List.reverseRecOn with
  | nil => simp
  | append_singleton vs v _ =>
    rw [foldl_append, getLastD_concat]
    cases v with
    | some v =>
      refine ⟨fun _ _ _ hvs => ?_, fun _ => rfl⟩
      simpa using hvs (some v) (by simp)
    | none =>
      by_cases hm : vs.foldl Line.apply l = .miss
      · obtain ⟨hl, hvs⟩ := Line.foldl_apply_eq_miss.mp hm
        have hread : ([none].foldl Line.apply (vs.foldl Line.apply l)).read b = b := by
          simp [hm, Line.apply, Line.delete, Line.read]
        rw [hread]
        refine ⟨fun hb _ _ _ => hb, fun h => h hl (by simp) fun v hv => ?_⟩
        rcases mem_append.mp hv with hv | hv
        · exact hvs v hv
        · exact mem_singleton.mp hv
      · have hd : [none].foldl Line.apply (vs.foldl Line.apply l) = .dead := by
          cases h : vs.foldl Line.apply l with
          | miss => exact absurd h hm
          | live v => rfl
          | dead => rfl
        rw [hd]
        refine ⟨fun _ hl _ hvs => absurd (Line.foldl_apply_eq_miss.mpr ⟨hl, ?_⟩) hm, fun _ => rfl⟩
        exact fun v hv => hvs v (by simp [hv])

/-- Whatever the line answers from itself is the value `v`. -/
def Line.Agrees (v : Option V) (l : Line V) : Prop := l ≠ .miss → ∀ b, l.read b = v

theorem Line.agrees_apply (l : Line V) (v : Option V) : (l.apply v).Agrees v := by
  intro hmiss b
  cases v with
  | some v => rfl
  | none =>
    cases l with
    | miss => exact absurd rfl hmiss
    | live w => rfl
    | dead => rfl

theorem Line.Agrees.evict {l : Line V} {v : Option V} (h : l.Agrees v) (q : V → Bool) :
    (l.evict q).Agrees v := by
  cases l with
  | miss => exact h
  | dead => exact h
  | live w =>
    by_cases hw : q w
    · exact fun hmiss => absurd (by simp [Line.evict, hw]) hmiss
    · simpa [Line.evict, hw] using h

/-- `st p` is the value of the key after `p` entries of the log. The store behind the line has seen
the first `m` of them, the cache the first `n`, and the line is right however far the store catches
up. -/
def Line.Coherent (st : ℕ → Option V) (m n : ℕ) (l : Line V) : Prop :=
  ∀ p, m ≤ p → p ≤ n → l.read (st p) = st n

namespace Line.Coherent

variable {st st' : ℕ → Option V} {l : Line V} {m m' n : ℕ}

theorem read_eq (h : l.Coherent st m n) (hmn : m ≤ n) : l.read (st m) = st n :=
  h m le_rfl hmn

theorem of_flush (h : l.Coherent st m n) (hm : m ≤ m') : l.Coherent st m' n :=
  fun p hp => h p (Nat.le_trans hm hp)

/-- A line may be dropped once no entry that the store has not seen changes the key. -/
theorem miss_of_settled (h : ∀ p, m ≤ p → p ≤ n → st p = st n) :
    (Line.miss : Line V).Coherent st m n :=
  h

theorem evict {q : V → Bool} (h : l.Coherent st m n)
    (hq : ∀ v, l = .live v → q v → ∀ p, m ≤ p → p ≤ n → st p = st n) :
    (l.evict q).Coherent st m n := by
  cases l with
  | miss => exact h
  | live v =>
    by_cases hv : q v
    · simpa [Line.evict, hv] using miss_of_settled (hq v rfl hv)
    · simpa [Line.evict, hv] using h
  | dead => exact h

/-- One more entry of the log, which sets the key to the values `vs` in turn, reaches the cache. -/
theorem read_apply_iff {vs : List (Option V)} {p : ℕ} (h : l.Coherent st m n) (hp : m ≤ p)
    (hpn : p ≤ n) :
    (vs.foldl Line.apply l).read (st p) = vs.getLastD (st n) ↔
      (l = .miss → vs ≠ [] → (∀ v ∈ vs, v = none) → st m = none) := by
  rw [← h p hp hpn, Line.read_foldl_apply_iff]
  refine forall_congr' fun hl => ?_
  subst hl
  have hpm : st p = st m := (h p hp hpn).trans (h m le_rfl (Nat.le_trans hp hpn)).symm
  rw [hpm]

theorem apply_entry {vs : List (Option V)} (h : l.Coherent st m n) (hmn : m ≤ n)
    (hst : ∀ p ≤ n, st' p = st p) (hn : st' (n + 1) = vs.getLastD (st n))
    (hmiss : l = .miss → vs ≠ [] → (∀ v ∈ vs, v = none) → st m = none) :
    (vs.foldl Line.apply l).Coherent st' m (n + 1) := by
  intro p hp hpn
  rcases Nat.le_succ_iff.mp hpn with hle | rfl
  · rw [hst p hle, hn]
    exact (h.read_apply_iff hp hle).mpr hmiss
  · -- the store has seen the entry itself, so only a line that holds something can be wrong
    have hm := (h.read_apply_iff le_rfl hmn).mpr hmiss
    rw [← hn] at hm
    cases hl : vs.foldl Line.apply l with
    | miss => rfl
    | live v | dead => simpa [hl, Line.read] using hm

end Line.Coherent

end Goblin.Lib
