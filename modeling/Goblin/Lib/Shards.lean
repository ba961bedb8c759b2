import Mathlib

/-! Stores that hold one line for each key, and stores that are split into shards by a route on keys. -/
namespace Goblin.Lib

open Function

/-- What is seen of a store: a line for each key, in the states in which the store is in order. -/
structure View (σ K L : Type*) where
  ok : σ → Prop
  line : σ → K → L

/-- Calls the body for each item in turn and collects what the calls return; a failing call ends the loop. -/
def each {σ κ β : Type*} (body : κ → σ → Option (List β × σ)) : List κ → σ → Option (List β × σ)
  | [], s => some ([], s)
  | c :: cs, s =>
    (body c s).bind fun r => (each body cs r.2).map fun q => (r.1 ++ q.1, q.2)

section Simulation

variable {σ τ K L α β κ : Type*} (v : View σ K L) (w : View τ K L)

/-- Two stores that show the same line for every key. -/
structure Alike (s : σ) (t : τ) : Prop where
  left : v.ok s
  right : w.ok t
  lines : ∀ k, v.line s k = w.line t k

/-- Both operations succeed with one answer and leave stores that are alike again. -/
def Simulates (f : σ → Option (α × σ)) (g : τ → Option (α × τ)) : Prop :=
  ∀ s t, Alike v w s t → ∃ a s' t', f s = some (a, s') ∧ g t = some (a, t') ∧ Alike v w s' t'

/-- A change of one key: the lines of other keys stay as they are. -/
def Confined (key : K) (s s' : σ) : Prop :=
  v.ok s' ∧ ∀ k ≠ key, v.line s' k = v.line s k

/-- The operations depend on the line of the key alone, and in the same way. -/
def Mirrors (key : K) (f : σ → Option (α × σ)) (g : τ → Option (α × τ)) : Prop :=
  ∀ s t, v.ok s → w.ok t → v.line s key = w.line t key →
    ∃ a s' t', f s = some (a, s') ∧ g t = some (a, t') ∧ v.line s' key = w.line t' key ∧
      Confined v key s s' ∧ Confined w key t t'

variable {v w} {key : K} {f : σ → Option (α × σ)} {g : τ → Option (α × τ)}

theorem Mirrors.simulates (h : Mirrors v w key f g) : Simulates v w f g := by
  intro s t hst
  obtain ⟨a, s', t', hf, hg, hline, ⟨hs', hs⟩, ht', ht⟩ :=
    h s t hst.left hst.right (hst.lines key)
  refine ⟨a, s', t', hf, hg, hs', ht', fun k => ?_⟩
  by_cases hk : k = key
  · rw [hk, hline]
  · rw [hs k hk, ht k hk, hst.lines k]

theorem Simulates.map (h : Simulates v w f g) (p : α → β) :
    Simulates v w (fun s => (f s).map fun r => (p r.1, r.2))
      (fun t => (g t).map fun r => (p r.1, r.2)) := by
  intro s t hst
  obtain ⟨a, s', t', hf, hg, hst'⟩ := h s t hst
  exact ⟨p a, s', t', by simp [hf], by simp [hg], hst'⟩

theorem Simulates.each {f : κ → σ → Option (List β × σ)} {g : κ → τ → Option (List β × τ)}
    (h : ∀ c, Simulates v w (f c) (g c)) (cs : List κ) :
    Simulates v w (Lib.each f cs) (Lib.each g cs) := by
  induction cs with
  | nil =>
    intro s t hst
    exact ⟨[], s, t, rfl, rfl, hst⟩
  | cons c cs ih =>
    intro s t hst
    obtain ⟨a, s', t', hf, hg, hst'⟩ := h c s t hst
    obtain ⟨b, s'', t'', hfs, hgs, hst''⟩ := ih s' t' hst'
    refine ⟨a ++ b, s'', t'', ?_, ?_, hst''⟩
    · simp [Lib.each, hf, hfs]
    · simp [Lib.each, hg, hgs]

end Simulation

section Shards

variable {ι σ τ K L α : Type*} [Inhabited L]

/-- A shard that does not exist shows the default line; the store is in order if every key has a shard. -/
def shardView (route : K → ι) (v : View σ K L) : View (ι → Option σ) K L where
  ok shards := ∀ k, ∃ s, shards (route k) = some s ∧ v.ok s
  line shards k := ((shards (route k)).map fun s => v.line s k).getD default

/-- Hands the operation to one shard; it fails if there is no such shard. -/
def forward [DecidableEq ι] (i : ι) (f : σ → Option (α × σ)) (shards : ι → Option σ) :
    Option (α × (ι → Option σ)) :=
  (shards i).bind fun s => (f s).map fun r => (r.1, update shards i (some r.2))

/-- An operation on every shard. -/
def forwardAll (f : σ → σ) (shards : ι → Option σ) : ι → Option σ :=
  fun i => (shards i).map f

variable {route : K → ι} {v : View σ K L} {w : View τ K L} {key : K}
  {f : σ → Option (α × σ)} {g : τ → Option (α × τ)}

theorem line_shardView {shards : ι → Option σ} {s : σ} (h : shards (route key) = some s) :
    (shardView route v).line shards key = v.line s key := by
  simp [shardView, h]

/-- The operation leaves the default line for every key. -/
def Wipes (v : View σ K L) (f : σ → σ) : Prop :=
  ∀ s, v.ok s → v.ok (f s) ∧ ∀ k, v.line (f s) k = default

theorem Wipes.forwardAll {f : σ → σ} (h : Wipes v f) :
    Wipes (shardView route v) (forwardAll f) := by
  intro shards hok
  refine ⟨fun k => ?_, fun k => ?_⟩
  · obtain ⟨s, hs, hsok⟩ := hok k
    exact ⟨f s, by simp [Lib.forwardAll, hs], (h s hsok).1⟩
  · obtain ⟨s, hs, hsok⟩ := hok k
    rw [line_shardView (s := f s) (by simp [Lib.forwardAll, hs])]
    exact (h s hsok).2 k

theorem Wipes.simulates {f : σ → σ} {g : τ → τ} (hf : Wipes v f) (hg : Wipes w g) (a : α) :
    Simulates v w (fun s => some (a, f s)) (fun t => some (a, g t)) := by
  intro s t hst
  obtain ⟨hs, hfs⟩ := hf s hst.left
  obtain ⟨ht, hgt⟩ := hg t hst.right
  exact ⟨a, f s, g t, rfl, rfl, hs, ht, fun k => by rw [hfs, hgt]⟩

variable [DecidableEq ι]

theorem line_update_of_route {shards : ι → Option σ} {s : σ} {i : ι} (h : route key = i) :
    (shardView route v).line (update shards i (some s)) key = v.line s key :=
  line_shardView (by rw [h, update_self])

theorem line_update_of_ne {shards : ι → Option σ} {s : σ} {i : ι} (h : route key ≠ i) :
    (shardView route v).line (update shards i (some s)) key =
      (shardView route v).line shards key := by
  simp [shardView, update_of_ne h]

theorem confined_forward {shards : ι → Option σ} {s s' : σ}
    (hs : shards (route key) = some s) (hok : (shardView route v).ok shards)
    (h : Confined v key s s') :
    Confined (shardView route v) key shards (update shards (route key) (some s')) := by
  refine ⟨fun k => ?_, fun k hk => ?_⟩
  · by_cases hroute : route k = route key
    · exact ⟨s', by rw [hroute, update_self], h.1⟩
    · rw [update_of_ne hroute]
      exact hok k
  · by_cases hroute : route k = route key
    · rw [line_update_of_route hroute, line_shardView (hroute ▸ hs)]
      exact h.2 k hk
    · exact line_update_of_ne hroute

theorem Mirrors.forward (h : Mirrors v w key f g) :
    Mirrors (shardView route v) w key (forward (route key) f) g := by
  intro shards t hok ht hline
  obtain ⟨s, hs, hsok⟩ := hok key
  rw [line_shardView hs] at hline
  obtain ⟨a, s', t', hf, hg, hline', hcs, hct⟩ := h s t hsok ht hline
  refine ⟨a, update shards (route key) (some s'), t', ?_, hg, ?_,
    confined_forward hs hok hcs, hct⟩
  · simp [Lib.forward, hs, hf]
  · rw [line_update_of_route rfl, hline']

end Shards

end Goblin.Lib
