import Mathlib

/-! Byte formats: codecs for single values, sequences of values up to the end of the input, base 128
numbers, and messages made of numbered fields. -/
namespace Goblin.Lib.Wire

open List Option

abbrev Bytes := List UInt8

/-- A value is read back from the bytes it was written as, whatever follows them, and from no shorter
part of them. -/
structure Codec (α : Type) where
  write : α → Bytes
  read : Bytes → Option (α × Bytes)
  read_write : ∀ a rest, read (write a ++ rest) = some (a, rest)
  read_take : ∀ a n, n < (write a).length → read ((write a).take n) = none
  read_nil : read [] = none

namespace Codec

variable {α : Type} (c : Codec α)

theorem length_write_pos (a : α) : 0 < (c.write a).length := by
  by_contra h
  have hnil : c.write a = [] := length_eq_zero_iff.mp (by omega)
  have hread := c.read_write a []
  rw [hnil, append_nil, c.read_nil] at hread
  cases hread

def writeAll (as : List α) : Bytes := as.flatMap c.write

@[simp] theorem writeAll_nil : c.writeAll [] = [] := rfl

@[simp] theorem writeAll_singleton (a : α) : c.writeAll [a] = c.write a := flatMap_singleton ..

@[simp] theorem writeAll_append (as bs : List α) : c.writeAll (as ++ bs) = c.writeAll as ++ c.writeAll bs :=
  flatMap_append

/-- `fuel` bounds the number of values. -/
def readUpTo : ℕ → Bytes → Option (List α)
  | _, [] => some []
  | 0, _ :: _ => none
  | fuel + 1, b :: bs =>
    match c.read (b :: bs) with
    | none => none
    | some (a, rest) => (readUpTo fuel rest).map (a :: ·)

def readAll (bs : Bytes) : Option (List α) := c.readUpTo bs.length bs

theorem readUpTo_succ_of_ne_nil {bs : Bytes} (h : bs ≠ []) (fuel : ℕ) :
    c.readUpTo (fuel + 1) bs =
      match c.read bs with
      | none => none
      | some (a, rest) => (c.readUpTo fuel rest).map (a :: ·) := by
  obtain ⟨b, bs, rfl⟩ := exists_cons_of_ne_nil h
  rfl

theorem readUpTo_append (a : α) (fuel : ℕ) (rest : Bytes) :
    c.readUpTo (fuel + 1) (c.write a ++ rest) = (c.readUpTo fuel rest).map (a :: ·) := by
  have hpos := c.length_write_pos a
  have hne : c.write a ++ rest ≠ [] := by
    intro h
    rw [(append_eq_nil_iff.mp h).1] at hpos
    exact absurd hpos (by simp)
  rw [c.readUpTo_succ_of_ne_nil hne, c.read_write]

theorem readUpTo_writeAll {as : List α} {fuel : ℕ} (h : (c.writeAll as).length ≤ fuel) :
    c.readUpTo fuel (c.writeAll as) = some as := by
  induction as generalizing fuel with
  | nil => cases fuel <;> rfl
  | cons a as ih =>
    have hsplit : c.writeAll (a :: as) = c.write a ++ c.writeAll as := flatMap_cons
    have hpos := c.length_write_pos a
    rw [hsplit, length_append] at h
    obtain ⟨fuel, rfl⟩ : ∃ k, fuel = k + 1 := ⟨fuel - 1, by omega⟩
    rw [hsplit, c.readUpTo_append, ih (by omega), map_some]

theorem readAll_writeAll (as : List α) : c.readAll (c.writeAll as) = some as :=
  c.readUpTo_writeAll (Nat.le_refl _)

/-- Bytes that are cut short are refused, or give fewer values. -/
theorem length_lt_of_readUpTo_take {as bs : List α} {fuel n : ℕ} (hn : n < (c.writeAll as).length)
    (h : c.readUpTo fuel ((c.writeAll as).take n) = some bs) : bs.length < as.length := by
  induction as generalizing fuel n bs with
  | nil => exact absurd hn (by simp [writeAll])
  | cons a as ih =>
    have hsplit : c.writeAll (a :: as) = c.write a ++ c.writeAll as := flatMap_cons
    rw [hsplit, length_append] at hn
    rw [hsplit, take_append] at h
    by_cases hcut : n < (c.write a).length
    · have hzero : n - (c.write a).length = 0 := by omega
      rw [hzero, take_zero, append_nil] at h
      cases n with
      | zero =>
        have hbs : bs = [] := by
          cases fuel <;> exact (Option.some.inj h).symm
        simp [hbs]
      | succ n =>
        -- the first value itself is cut
        have hne : (c.write a).take (n + 1) ≠ [] := by
          intro hnil
          have hlen := congrArg List.length hnil
          rw [length_take, length_nil] at hlen
          omega
        cases fuel with
        | zero =>
          obtain ⟨b, rest, hb⟩ := exists_cons_of_ne_nil hne
          rw [hb] at h
          cases h
        | succ fuel =>
          rw [c.readUpTo_succ_of_ne_nil hne, c.read_take a (n + 1) hcut] at h
          cases h
    · rw [take_of_length_le (Nat.le_of_not_lt hcut)] at h
      cases fuel with
      | zero =>
        have hpos := c.length_write_pos a
        obtain ⟨b, rest, hb⟩ := exists_cons_of_ne_nil (length_pos_iff.mp hpos)
        rw [hb] at h
        cases h
      | succ fuel =>
        rw [c.readUpTo_append] at h
        obtain ⟨cs, hcs, rfl⟩ := map_eq_some_iff.mp h
        have hlt := ih (by omega) hcs
        simpa using hlt

end Codec

/-- Seven bits in each byte, the lowest first; every byte but the last has its high bit set. -/
def writeVarintUpTo : ℕ → ℕ → Bytes
  | 0, n => [UInt8.ofNat n]
  | fuel + 1, n =>
    if n < 128 then [UInt8.ofNat n] else UInt8.ofNat (n % 128 + 128) :: writeVarintUpTo fuel (n / 128)

def writeVarint (n : ℕ) : Bytes := writeVarintUpTo n n

def readVarint : Bytes → Option (ℕ × Bytes)
  | [] => none
  | b :: bs =>
    if b.toNat < 128 then some (b.toNat, bs)
    else
      match readVarint bs with
      | none => none
      | some (n, rest) => some (b.toNat - 128 + 128 * n, rest)

theorem toNat_ofNat_of_lt {n : ℕ} (h : n < 256) : (UInt8.ofNat n).toNat = n := by
  rw [UInt8.toNat_ofNat']
  exact Nat.mod_eq_of_lt h

theorem readVarint_last {n : ℕ} (h : n < 128) (rest : Bytes) :
    readVarint (UInt8.ofNat n :: rest) = some (n, rest) := by
  rw [readVarint, toNat_ofNat_of_lt (by omega), if_pos h]

theorem readVarint_more (n : ℕ) (bs : Bytes) :
    readVarint (UInt8.ofNat (n % 128 + 128) :: bs) =
      match readVarint bs with
      | none => none
      | some (m, rest) => some (n % 128 + 128 * m, rest) := by
  rw [readVarint, toNat_ofNat_of_lt (by omega), if_neg (by omega), Nat.add_sub_cancel]

theorem readVarint_writeVarintUpTo {fuel n : ℕ} (h : n ≤ fuel) (rest : Bytes) :
    readVarint (writeVarintUpTo fuel n ++ rest) = some (n, rest) := by
  induction fuel generalizing n with
  | zero => exact readVarint_last (by omega) rest
  | succ fuel ih =>
    unfold writeVarintUpTo
    split_ifs with hlt
    · exact readVarint_last hlt rest
    · rw [cons_append, readVarint_more, ih (by omega)]
      have hdiv : n % 128 + 128 * (n / 128) = n := Nat.mod_add_div n 128
      simp only [hdiv]

theorem readVarint_take_writeVarintUpTo {fuel n k : ℕ} (hk : k < (writeVarintUpTo fuel n).length) :
    readVarint ((writeVarintUpTo fuel n).take k) = none := by
  induction fuel generalizing n k with
  | zero =>
    have hzero : k = 0 := by simpa [writeVarintUpTo] using hk
    subst hzero
    rfl
  | succ fuel ih =>
    unfold writeVarintUpTo at hk ⊢
    split_ifs at hk ⊢ with hlt
    · have hzero : k = 0 := by simpa using hk
      subst hzero
      rfl
    · cases k with
      | zero => rfl
      | succ k =>
        rw [take_succ_cons, readVarint_more, ih (by simpa using hk)]

def varint : Codec ℕ where
  write := writeVarint
  read := readVarint
  read_write n rest := readVarint_writeVarintUpTo (Nat.le_refl n) rest
  read_take _ _ hk := readVarint_take_writeVarintUpTo hk
  read_nil := rfl

/-- A numbered field holds a number or a block of bytes. -/
inductive Field
  | varint (number value : ℕ)
  | bytes (number : ℕ) (payload : Bytes)
  deriving DecidableEq, Repr

namespace Field

/-- The low three bits of the tag tell the two kinds apart. -/
def write : Field → Bytes
  | .varint number value => Wire.varint.write (number * 8) ++ Wire.varint.write value
  | .bytes number payload =>
    Wire.varint.write (number * 8 + 2) ++ (Wire.varint.write payload.length ++ payload)

def readPayload (number : ℕ) (bs : Bytes) : Option (Field × Bytes) :=
  match readVarint bs with
  | none => none
  | some (length, rest) =>
    if rest.length < length then none
    else some (.bytes number (rest.take length), rest.drop length)

def read (bs : Bytes) : Option (Field × Bytes) :=
  match readVarint bs with
  | none => none
  | some (tag, rest) =>
    if tag % 8 = 0 then (readVarint rest).map fun (value, rest) => (.varint (tag / 8) value, rest)
    else if tag % 8 = 2 then readPayload (tag / 8) rest
    else none

theorem readPayload_append (number : ℕ) (payload rest : Bytes) :
    readPayload number (Wire.varint.write payload.length ++ (payload ++ rest)) =
      some (.bytes number payload, rest) := by
  have hread : readVarint (Wire.varint.write payload.length ++ (payload ++ rest)) =
      some (payload.length, payload ++ rest) := Wire.varint.read_write _ _
  simp [readPayload, hread]

theorem read_varint (number : ℕ) (rest : Bytes) :
    read (Wire.varint.write (number * 8) ++ rest) =
      (readVarint rest).map fun (value, rest) => (.varint number value, rest) := by
  have hread : readVarint (Wire.varint.write (number * 8) ++ rest) = some (number * 8, rest) :=
    Wire.varint.read_write _ _
  have hkind : number * 8 % 8 = 0 := by omega
  have hnumber : number * 8 / 8 = number := by omega
  simp only [read, hread, if_pos hkind, hnumber]

theorem read_bytes (number : ℕ) (rest : Bytes) :
    read (Wire.varint.write (number * 8 + 2) ++ rest) = readPayload number rest := by
  have hread : readVarint (Wire.varint.write (number * 8 + 2) ++ rest) = some (number * 8 + 2, rest) :=
    Wire.varint.read_write _ _
  have hkind : (number * 8 + 2) % 8 = 2 := by omega
  have hnumber : (number * 8 + 2) / 8 = number := by omega
  simp only [read, hread, hkind, hnumber]
  rfl

theorem read_write (f : Field) (rest : Bytes) : read (f.write ++ rest) = some (f, rest) := by
  cases f with
  | varint number value =>
    have hvalue : readVarint (Wire.varint.write value ++ rest) = some (value, rest) :=
      Wire.varint.read_write _ _
    rw [write, append_assoc, read_varint, hvalue, map_some]
  | bytes number payload =>
    rw [write, append_assoc, append_assoc, read_bytes, readPayload_append]

theorem take_append_cases (as bs : Bytes) {n : ℕ} (hn : n < (as ++ bs).length) :
    (n < as.length ∧ (as ++ bs).take n = as.take n) ∨
      ∃ k < bs.length, (as ++ bs).take n = as ++ bs.take k := by
  rw [length_append] at hn
  by_cases hcut : n < as.length
  · exact .inl ⟨hcut, take_append_of_le_length (Nat.le_of_lt hcut)⟩
  · refine .inr ⟨n - as.length, by omega, ?_⟩
    rw [take_append, take_of_length_le (Nat.le_of_not_lt hcut)]

theorem readPayload_take (number : ℕ) (payload : Bytes) {n : ℕ}
    (hn : n < (Wire.varint.write payload.length ++ payload).length) :
    readPayload number ((Wire.varint.write payload.length ++ payload).take n) = none := by
  rcases take_append_cases _ _ hn with ⟨hcut, htake⟩ | ⟨k, hk, htake⟩
  · have hread : readVarint ((Wire.varint.write payload.length).take n) = none :=
      Wire.varint.read_take _ _ hcut
    rw [htake, readPayload, hread]
  · have hread : readVarint (Wire.varint.write payload.length ++ payload.take k) =
        some (payload.length, payload.take k) := Wire.varint.read_write _ _
    have hshort : (payload.take k).length < payload.length := by
      rw [length_take]
      omega
    rw [htake, readPayload, hread]
    exact if_pos hshort

theorem read_take (f : Field) (n : ℕ) (hn : n < f.write.length) : read (f.write.take n) = none := by
  cases f with
  | varint number value =>
    rcases take_append_cases _ _ hn with ⟨hcut, htake⟩ | ⟨k, hk, htake⟩
    · have hread : readVarint ((Wire.varint.write (number * 8)).take n) = none :=
        Wire.varint.read_take _ _ hcut
      rw [write, htake, read, hread]
    · have hvalue : readVarint ((Wire.varint.write value).take k) = none :=
        Wire.varint.read_take _ _ hk
      rw [write, htake, read_varint, hvalue, map_none]
  | bytes number payload =>
    rcases take_append_cases _ _ hn with ⟨hcut, htake⟩ | ⟨k, hk, htake⟩
    · have hread : readVarint ((Wire.varint.write (number * 8 + 2)).take n) = none :=
        Wire.varint.read_take _ _ hcut
      rw [write, htake, read, hread]
    · rw [write, htake, read_bytes, readPayload_take number payload hk]

end Field

def field : Codec Field where
  write := Field.write
  read := Field.read
  read_write := Field.read_write
  read_take := Field.read_take
  read_nil := rfl

/-- A number that is left out when it is zero. -/
def optional (number value : ℕ) : List Field := if value = 0 then [] else [.varint number value]

theorem length_optional_le (number value : ℕ) : (optional number value).length ≤ 1 := by
  unfold optional
  split_ifs <;> simp

theorem foldlM_optional {M : Type} {set : M → Field → Option M} {m m' : M} {number value : ℕ}
    (hzero : value = 0 → m' = m) (hset : set m (.varint number value) = some m') :
    (optional number value).foldlM set m = some m' := by
  unfold optional
  split_ifs with h
  · rw [hzero h]
    rfl
  · rw [foldlM_cons, hset]
    rfl

theorem length_writeVarintUpTo_le {k : ℕ} (hk : 0 < k) :
    ∀ {fuel n : ℕ}, n ≤ fuel → n < 128 ^ k → (writeVarintUpTo fuel n).length ≤ k := by
  induction k, hk using Nat.le_induction with
  | base =>
    intro fuel n _ hn
    rw [Nat.pow_one] at hn
    cases fuel with
    | zero => simp [writeVarintUpTo]
    | succ fuel => simp [writeVarintUpTo, hn]
  | succ k hk ih =>
    intro fuel n hfuel hn
    cases fuel with
    | zero => simp [writeVarintUpTo]
    | succ fuel =>
      rw [writeVarintUpTo]
      split_ifs with hlt
      · simp
      · rw [Nat.pow_succ] at hn
        have hdiv : n / 128 < 128 ^ k := Nat.div_lt_of_lt_mul (by omega)
        have hfuel' : n / 128 ≤ fuel := by omega
        have hle := ih hfuel' hdiv
        rw [length_cons]
        omega

theorem length_writeVarint_le {k n : ℕ} (hk : 0 < k) (hn : n < 128 ^ k) : (varint.write n).length ≤ k :=
  length_writeVarintUpTo_le hk le_rfl hn

theorem Field.length_write_varint_le {number value k : ℕ} (hnumber : number < 16) (hk : 0 < k)
    (hvalue : value < 128 ^ k) : (Field.varint number value).write.length ≤ 1 + k := by
  have htag : (Wire.varint.write (number * 8)).length ≤ 1 := length_writeVarint_le Nat.one_pos (by omega)
  have hnum := length_writeVarint_le hk hvalue
  simp only [Field.write, length_append]
  omega

theorem Field.length_write_bytes_le {number k : ℕ} {payload : Bytes} (hnumber : number < 16) (hk : 0 < k)
    (hlength : payload.length < 128 ^ k) :
    (Field.bytes number payload).write.length ≤ 1 + k + payload.length := by
  have htag : (Wire.varint.write (number * 8 + 2)).length ≤ 1 := length_writeVarint_le Nat.one_pos (by omega)
  have hnum := length_writeVarint_le hk hlength
  simp only [Field.write, length_append]
  omega

theorem length_optional_write_le (number : ℕ) {value k : ℕ} (hnumber : number < 16) (hk : 0 < k)
    (hvalue : value < 128 ^ k) : (field.writeAll (optional number value)).length ≤ 1 + k := by
  unfold optional
  split_ifs
  · exact Nat.zero_le _
  · simpa [Codec.writeAll, field] using Field.length_write_varint_le hnumber hk hvalue

/-- A message is read field by field into an empty one. Each field fills at most one place, so the
fields of a message are all needed. -/
structure Message (M : Type) where
  empty : M
  fields : M → List Field
  set : M → Field → Option M
  fields_empty : fields empty = []
  foldlM_fields : ∀ m, (fields m).foldlM set empty = some m
  length_set_le : ∀ m f m', set m f = some m' → (fields m').length ≤ (fields m).length + 1

namespace Message

variable {M : Type} (msg : Message M)

/-- Reads fields on top of a message. -/
def merge (m : M) (bs : Bytes) : Option M := (field.readAll bs).bind fun fs => fs.foldlM msg.set m

def encode (m : M) : Bytes := field.writeAll (msg.fields m)

def decode (bs : Bytes) : Option M := msg.merge msg.empty bs

theorem decode_encode (m : M) : msg.decode (msg.encode m) = some m := by
  rw [decode, merge, encode, field.readAll_writeAll, bind_some, msg.foldlM_fields]

theorem length_foldlM_le {fs : List Field} {m m' : M} (h : fs.foldlM msg.set m = some m') :
    (msg.fields m').length ≤ (msg.fields m).length + fs.length := by
  induction fs generalizing m with
  | nil =>
    cases h
    exact Nat.le_refl _
  | cons f fs ih =>
    rw [foldlM_cons] at h
    obtain ⟨m₁, hset, hrest⟩ := bind_eq_some_iff.mp h
    have hfirst := msg.length_set_le m f m₁ hset
    have htail := ih hrest
    rw [length_cons]
    omega

/-- No shorter part of the bytes of a message is read as the same message. -/
theorem decode_take_ne (m : M) {n : ℕ} (hn : n < (msg.encode m).length) :
    msg.decode ((msg.encode m).take n) ≠ some m := by
  intro h
  obtain ⟨fs, hfs, hm⟩ := bind_eq_some_iff.mp h
  have hlt : fs.length < (msg.fields m).length := field.length_lt_of_readUpTo_take hn hfs
  have hle := msg.length_foldlM_le hm
  rw [msg.fields_empty, length_nil] at hle
  omega

end Message

end Goblin.Lib.Wire
