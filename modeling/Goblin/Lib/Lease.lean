import Mathlib

/-! A table of versioned records that expire. Every write belongs to an owner; an owner keeps a key from
its write until its lease runs out, unless it has revoked the lease itself. -/
namespace Goblin.Lib.Lease

open Function

structure Record (O V L : Type*) where
  value : V
  version : ℕ
  lease : L
  owner : O

/-- `author` and `lease` are history: who has written a version and which lease an owner was given
last at a key. -/
structure Table (K O V L : Type*) where
  record : K → Option (Record O V L) := fun _ => none
  version : ℕ := 0
  now : ℕ := 0
  author : ℕ → Option (K × O) := fun _ => none
  lease : K → O → Option L := fun _ _ => none

/-- What a conditional operation answers. -/
inductive Answer
  | written (version : ℕ)
  | removed
  | unmet
  | missing
  deriving DecidableEq, Repr

variable {K O V L : Type*} [DecidableEq K] [DecidableEq O] (timedOut : ℕ → L → Bool)

namespace Table

variable {k : K} {r : Record O V L} {o : O} {expected : ℕ}

/-- The record that a reader sees. -/
def live (t : Table K O V L) (k : K) : Option (Record O V L) :=
  (t.record k).filter fun r => !timedOut t.now r.lease

def write (t : Table K O V L) (k : K) (o : O) (v : V) (l : L) : Table K O V L :=
  { t with
    record := update t.record k (some ⟨v, t.version + 1, l, o⟩)
    version := t.version + 1
    author := update t.author (t.version + 1) (some (k, o))
    lease := update t.lease k (update (t.lease k) o (some l)) }

/-- A write on a condition. -/
def writeIf (t : Table K O V L) (p : Bool) (k : K) (o : O) (v : V) (l : L) : Table K O V L × Answer :=
  if p then (t.write k o v l, .written (t.version + 1)) else (t, .unmet)

/-- A write on the condition that the key does not exist. -/
def create (t : Table K O V L) (k : K) (o : O) (v : V) (l : L) : Table K O V L × Answer :=
  t.writeIf (t.live timedOut k).isNone k o v l

/-- A write on the condition that the key has the version `expected`. -/
def replace (t : Table K O V L) (k : K) (o : O) (expected : ℕ) (v : V) (l : L) :
    Table K O V L × Answer :=
  t.writeIf ((t.live timedOut k).any fun r => r.version = expected) k o v l

/-- A delete; the version 0 stands for every version. -/
def remove (t : Table K O V L) (k : K) (expected : ℕ) : Table K O V L × Answer :=
  match t.live timedOut k with
  | none => (t, .missing)
  | some r =>
    if expected ≠ 0 ∧ expected ≠ r.version then (t, .missing)
    else ({ t with record := update t.record k none, version := t.version + 1 }, .removed)

/-- The lease of `o` at `k` has been given and has not run out. -/
def Leased (t : Table K O V L) (k : K) (o : O) : Prop :=
  ∃ l ∈ t.lease k o, timedOut t.now l = false

instance (t : Table K O V L) (k : K) (o : O) : Decidable (t.Leased timedOut k o) :=
  inferInstanceAs (Decidable (∃ l ∈ t.lease k o, timedOut t.now l = false))

/-- The records are those of their authors, and an owner that has not revoked its lease keeps its
key as long as the lease lasts. -/
structure Inv (revoked : O → Prop) (t : Table K O V L) : Prop where
  author_le : ∀ n a, t.author n = some a → 0 < n ∧ n ≤ t.version
  record_author : ∀ k r, t.record k = some r → t.author r.version = some (k, r.owner)
  record_lease : ∀ k r, t.record k = some r → t.lease k r.owner = some r.lease
  kept : ∀ k o, t.Leased timedOut k o → ¬ revoked o → ∃ r, t.record k = some r ∧ r.owner = o

variable {timedOut} {revoked : O → Prop} {t : Table K O V L}

omit [DecidableEq K] [DecidableEq O] in
theorem record_of_live (h : t.live timedOut k = some r) : t.record k = some r := by
  unfold live at h
  exact (Option.filter_eq_some_iff.mp h).1

theorem live_write {k' : K} {v : V} {l : L} (h : (t.write k o v l).live timedOut k' = some r) :
    k' = k ∧ r.owner = o ∧ r.version = t.version + 1 ∨ k' ≠ k ∧ t.live timedOut k' = some r := by
  by_cases hk : k' = k
  · subst hk
    obtain rfl : _ = r := by simpa [write] using record_of_live h
    exact .inl ⟨rfl, rfl, rfl⟩
  · exact .inr ⟨hk, by simpa [live, write, hk] using h⟩

theorem live_writeIf {p : Bool} {k' : K} {v : V} {l : L} (h : (t.writeIf p k o v l).1.live timedOut k' = some r) :
    (∃ n, (t.writeIf p k o v l).2 = .written n ∧ k' = k ∧ r.owner = o ∧ r.version = n) ∨
      t.live timedOut k' = some r ∧ (k' = k → p = false) := by
  unfold writeIf at h ⊢
  split_ifs at h ⊢ with hp
  · obtain ⟨hk, howner, hversion⟩ | ⟨hk, hlive⟩ := live_write h
    · exact .inl ⟨_, rfl, hk, howner, hversion⟩
    · exact .inr ⟨hlive, fun he => absurd he hk⟩
  · exact .inr ⟨h, fun _ => by simpa using hp⟩

omit [DecidableEq O] in
theorem live_remove {k' : K} (h : (t.remove timedOut k expected).1.live timedOut k' = some r) :
    t.live timedOut k' = some r ∧ (k' = k → r.version ≠ expected) := by
  unfold remove at h
  cases hk : t.live timedOut k with
  | none =>
    rw [hk] at h
    refine ⟨h, ?_⟩
    rintro rfl
    cases hk.symm.trans h
  | some r' =>
    simp only [hk] at h
    split_ifs at h with hv
    · refine ⟨h, ?_⟩
      rintro rfl
      obtain rfl := Option.some.inj (hk.symm.trans h)
      exact fun he => hv.2 he.symm
    · by_cases hkk : k' = k
      · simp [live, hkk] at h
      · exact ⟨by simpa [live, hkk] using h, fun he => absurd he hkk⟩

omit [DecidableEq K] [DecidableEq O] in
theorem Inv.initial : Inv timedOut revoked ({} : Table K O V L) where
  author_le _ _ h := nomatch h
  record_author _ _ h := nomatch h
  record_lease _ _ h := nomatch h
  kept _ _ h := nomatch h

omit [DecidableEq K] [DecidableEq O] in
theorem Inv.mono {revoked' : O → Prop} (h : Inv timedOut revoked t) (hr : ∀ o, revoked o → revoked' o) :
    Inv timedOut revoked' t :=
  { h with kept := fun k o hl ho => h.kept k o hl fun hrev => ho (hr o hrev) }

omit [DecidableEq K] [DecidableEq O] in
theorem Inv.owner_unique (h : Inv timedOut revoked t) {o' : O} (ho : t.Leased timedOut k o) (hr : ¬ revoked o)
    (ho' : t.Leased timedOut k o') (hr' : ¬ revoked o') : o = o' := by
  obtain ⟨r, hk, rfl⟩ := h.kept k o ho hr
  obtain ⟨r', hk', rfl⟩ := h.kept k o' ho' hr'
  cases hk.symm.trans hk'
  rfl

omit [DecidableEq K] [DecidableEq O] in
theorem Inv.tick (hmono : ∀ n m l, n ≤ m → timedOut n l = true → timedOut m l = true)
    (h : Inv timedOut revoked t) {n : ℕ} (hn : t.now ≤ n) : Inv timedOut revoked { t with now := n } where
  __ := h
  kept k o hl hr := by
    obtain ⟨l, hl, hlive⟩ := hl
    refine h.kept k o ⟨l, hl, ?_⟩ hr
    cases hout : timedOut t.now l with
    | false => rfl
    | true => exact (hmono _ _ l hn hout).symm.trans hlive

omit [DecidableEq K] [DecidableEq O] in
theorem Inv.bump (h : Inv timedOut revoked t) : Inv timedOut revoked { t with version := t.version + 1 } where
  __ := h
  author_le n a ha := ⟨(h.author_le n a ha).1, (h.author_le n a ha).2.trans (Nat.le_succ _)⟩

theorem author_write {n : ℕ} {a : K × O} (h : Inv timedOut revoked t) (hn : t.author n = some a)
    (k : K) (o : O) (v : V) (l : L) : (t.write k o v l).author n = some a := by
  have hne : n ≠ t.version + 1 := by
    have := (h.author_le n a hn).2
    omega
  simpa [write, update_of_ne hne] using hn

attribute [local simp] Table.write

theorem Inv.write (h : Inv timedOut revoked t) (v : V) (l : L)
    (hfree : ∀ o', t.Leased timedOut k o' → ¬ revoked o' → o' = o) : Inv timedOut revoked (t.write k o v l) where
  author_le n a hn := by
    by_cases hne : n = t.version + 1
    · exact ⟨by omega, hne.le⟩
    · have := h.author_le n a (by simpa [update_of_ne hne] using hn)
      exact ⟨this.1, this.2.trans (Nat.le_succ _)⟩
  record_author k' r hr := by
    by_cases hk : k' = k
    · subst hk
      obtain rfl : _ = r := by simpa using hr
      simp
    · have hr' : t.record k' = some r := by simpa [update_of_ne hk] using hr
      exact author_write h (h.record_author k' r hr') k o v l
  record_lease k' r hr := by
    by_cases hk : k' = k
    · subst hk
      obtain rfl : _ = r := by simpa using hr
      simp
    · have hr' : t.record k' = some r := by simpa [update_of_ne hk] using hr
      simpa [update_of_ne hk] using h.record_lease k' r hr'
  kept k' o' hl hr := by
    by_cases hk : k' = k
    · subst hk
      refine ⟨⟨v, t.version + 1, l, o⟩, by simp, ?_⟩
      by_contra hne
      have hne : o' ≠ o := fun he => hne he.symm
      exact hne (hfree o' (by simpa [Leased, update_of_ne hne] using hl) hr)
    · have hl' : t.Leased timedOut k' o' := by
        simpa [Leased, update_of_ne hk] using hl
      simpa [update_of_ne hk] using h.kept k' o' hl' hr

theorem Inv.writeIf (h : Inv timedOut revoked t) {p : Bool} (v : V) (l : L)
    (hfree : p = true → ∀ o', t.Leased timedOut k o' → ¬ revoked o' → o' = o) :
    Inv timedOut revoked (t.writeIf p k o v l).1 := by
  unfold Table.writeIf
  split_ifs with hp
  · exact h.write v l (hfree hp)
  · exact h

theorem author_writeIf (h : Inv timedOut revoked t) {n : ℕ} {a : K × O} (hn : t.author n = some a)
    (p : Bool) (k : K) (o : O) (v : V) (l : L) : (t.writeIf p k o v l).1.author n = some a := by
  unfold Table.writeIf
  split_ifs
  · exact author_write h hn k o v l
  · exact hn

theorem author_of_written {p : Bool} {v : V} {l : L} {n : ℕ} (h : (t.writeIf p k o v l).2 = .written n) :
      (t.writeIf p k o v l).1.author n = some (k, o) := by
  unfold Table.writeIf at h ⊢
  split_ifs at h ⊢
  cases h
  simp

theorem Inv.create (h : Inv timedOut revoked t) (k : K) (o : O) (v : V) (l : L) :
    Inv timedOut revoked (t.create timedOut k o v l).1 := by
  refine h.writeIf v l fun hnone o' hl hr => ?_
  -- a holder's record would be the one that `live` does not find
  obtain ⟨r, hrec, rfl⟩ := h.kept k o' hl hr
  obtain ⟨l', hl', hnow⟩ := hl
  obtain rfl : r.lease = l' := Option.some.inj ((h.record_lease k r hrec).symm.trans hl')
  simp [live, hrec, hnow] at hnone

/-- Who replaces a version that it has written itself takes the key from nobody. -/
theorem Inv.replace (h : Inv timedOut revoked t) (v : V) (l : L) (ha : t.author expected = some (k, o)) :
    Inv timedOut revoked (t.replace timedOut k o expected v l).1 := by
  refine h.writeIf v l fun hany o' hl hr => ?_
  obtain ⟨r, hrec, rfl⟩ := h.kept k o' hl hr
  cases hlive : t.live timedOut k with
  | none => simp [hlive] at hany
  | some r' =>
    cases hrec.symm.trans (record_of_live hlive)
    have hv : r.version = expected := by simpa [hlive] using hany
    have hauthor := h.record_author k r hrec
    rw [hv, ha] at hauthor
    exact (Prod.ext_iff.mp (Option.some.inj hauthor)).2.symm

omit [DecidableEq K] [DecidableEq O] in
theorem Inv.owner_of_removed (h : Inv timedOut revoked t) (hne : expected ≠ 0) (ha : t.author expected = some (k, o))
    (hr : t.record k = some r) (hv : ¬(expected ≠ 0 ∧ expected ≠ r.version)) : r.owner = o := by
  have hv : expected = r.version := by
    by_contra hcon
    exact hv ⟨hne, hcon⟩
  have hauthor := h.record_author k r hr
  rw [← hv, ha] at hauthor
  exact (Prod.ext_iff.mp (Option.some.inj hauthor)).2.symm

omit [DecidableEq O] in
@[simp] theorem author_remove (k : K) (expected : ℕ) :
    (t.remove timedOut k expected).1.author = t.author := by
  unfold Table.remove
  cases t.live timedOut k with
  | none => rfl
  | some r =>
    dsimp only
    split_ifs <;> rfl

omit [DecidableEq O] in
theorem Inv.remove (h : Inv timedOut revoked t) (hne : expected ≠ 0) (ha : t.author expected = some (k, o))
    (hrev : revoked o) : Inv timedOut revoked (t.remove timedOut k expected).1 := by
  unfold Table.remove
  cases hlive : t.live timedOut k with
  | none => exact h
  | some r =>
    dsimp only
    split_ifs with hv
    · exact h
    have hrec := record_of_live hlive
    have howner := h.owner_of_removed hne ha hrec hv
    have hother : ∀ {k'} {r' : Record O V L}, update t.record k none k' = some r' →
        k' ≠ k ∧ t.record k' = some r' := by
      intro k' r' hr'
      by_cases hk : k' = k
      · simp [hk] at hr'
      · exact ⟨hk, by simpa [update_of_ne hk] using hr'⟩
    refine ⟨fun n a hn => ?_, fun k' r' hr' => h.record_author k' r' (hother hr').2,
      fun k' r' hr' => h.record_lease k' r' (hother hr').2, fun k' o' hl hr => ?_⟩
    · exact ⟨(h.author_le n a hn).1, (h.author_le n a hn).2.trans (Nat.le_succ _)⟩
    · obtain ⟨r', hrec', rfl⟩ := h.kept k' o' hl hr
      have hk : k' ≠ k := by
        rintro rfl
        cases hrec.symm.trans hrec'
        exact hr (howner ▸ hrev)
      exact ⟨r', by simpa [update_of_ne hk] using hrec', rfl⟩

omit [DecidableEq O] in
theorem Inv.not_leased_of_remove (h : Inv timedOut revoked t) (hne : expected ≠ 0)
    (ha : t.author expected = some (k, o)) (hrev : revoked o)
    (hchange : (t.remove timedOut k expected).1.record k ≠ t.record k) {o' : O} (ho' : t.Leased timedOut k o') :
      revoked o' := by
  by_contra hr'
  obtain ⟨r, hrec, rfl⟩ := h.kept k o' ho' hr'
  apply hchange
  unfold Table.remove
  cases hlive : t.live timedOut k with
  | none => rfl
  | some r' =>
    cases hrec.symm.trans (record_of_live hlive)
    dsimp only
    split_ifs with hv
    · rfl
    · exact absurd (h.owner_of_removed hne ha hrec hv ▸ hrev) hr'

end Table

end Goblin.Lib.Lease
