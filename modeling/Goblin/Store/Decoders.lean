import Goblin.Store.Compaction

/-! What the decoders of records touch of the bytes that they are given. -/
namespace Goblin.Store.RocksDBKVStore

open Proto Lib.Wire List

/-- Bytes of the raw value that are read, or a pointer into it that is handed to the parser with a length. -/
inductive Access
  | read (offset count : ℕ)
  | parse (offset : ℕ) (length : ℤ)
  deriving DecidableEq, Repr

def Access.Within (raw : Bytes) : Access → Prop
  | .read offset count => offset + count ≤ raw.length
  | .parse offset length => 0 ≤ length ∧ offset + length ≤ raw.length

/-- The header has one of the two types that are decoded. -/
def isKnownType (raw : Bytes) : Prop :=
  signedChar (raw.getD 0 0) = DataType.NORMAL.toNat ∨ signedChar (raw.getD 0 0) = DataType.NORMAL_WITH_TTL.toNat

instance (raw : Bytes) : Decidable (isKnownType raw) := inferInstanceAs (Decidable (_ ∨ _))

/-- What `parseMeta` does with the raw value, step by step. -/
def parseMetaAccesses (raw : Bytes) : List Access :=
  if raw.length ≤ headerLen then []
  else .read 0 1 ::
    if ¬ isKnownType raw then []
    else .read 1 1 ::
      if raw.length ≤ addUInt32 headerLen (signedChar (raw.getD 1 0)) then []
      else [.parse headerLen (signedChar (raw.getD 1 0))]

def fromRawValueAccesses (raw : Bytes) : List Access :=
  parseMetaAccesses raw ++
    match parseMeta raw with
    | .error _ => []
    | .ok _ =>
      let dataOffset := addUInt32 headerLen (signedChar (raw.getD 1 0))
      if raw.length ≤ dataOffset then [] else [.parse dataOffset (toInt32 (raw.length - dataOffset))]

/-- `TTLCompactionFilter::Filter` looks at the type before anything is checked. -/
def filterAccesses (raw : Bytes) : List Access :=
  .read 0 1 ::
    if signedChar (raw.getD 0 0) ≠ DataType.NORMAL_WITH_TTL.toNat then [] else parseMetaAccesses raw

structure DecodesSafely (raw : Bytes) : Prop where
  fromRawValue : ∀ a ∈ fromRawValueAccesses raw, a.Within raw
  parseMeta : ∀ a ∈ parseMetaAccesses raw, a.Within raw
  filter : ∀ a ∈ filterAccesses raw, a.Within raw
  sameMeta : ∀ payload, RocksDBKVStore.fromRawValue raw = .ok payload →
    RocksDBKVStore.parseMeta raw = .ok payload.info

/-- A value with a known type, a length byte that is a length, and a meta of that length that parses before its end. -/
def HoldsMeta (raw : Bytes) : Prop :=
  headerLen < raw.length ∧ isKnownType raw ∧ (raw.getD 1 0).toNat < 128 ∧
    headerLen + (raw.getD 1 0).toNat < raw.length ∧
    (Meta.message.decode ((raw.drop headerLen).take (raw.getD 1 0).toNat)).isSome

/-- Not empty; a negative length byte behind a known type is below -2 and the value ends before the offset that it
wraps to; and what follows a meta that parses has a length that stays positive as an `int`. -/
structure Decodable (raw : Bytes) : Prop where
  nonempty : raw ≠ []
  metaLen : headerLen < raw.length → isKnownType raw → 128 ≤ (raw.getD 1 0).toNat →
    (raw.getD 1 0).toNat < 254 ∧ raw.length + 254 ≤ 2 ^ 32 + (raw.getD 1 0).toNat
  dataLen : HoldsMeta raw → (raw.length - (headerLen + (raw.getD 1 0).toNat)) % 2 ^ 32 < 2 ^ 31

variable {raw : Bytes}

theorem addUInt32_of_lt (h : (raw.getD 1 0).toNat < 128) :
    signedChar (raw.getD 1 0) = (raw.getD 1 0).toNat ∧
      addUInt32 headerLen (signedChar (raw.getD 1 0)) = headerLen + (raw.getD 1 0).toNat := by
  unfold addUInt32 signedChar headerLen
  split_ifs
  omega

/-- A negative length byte passes the check exactly where the offset does not wrap to one behind the value. -/
theorem le_addUInt32_iff (hsize : headerLen < raw.length) (h : 128 ≤ (raw.getD 1 0).toNat) :
    raw.length ≤ addUInt32 headerLen (signedChar (raw.getD 1 0)) ↔
      (raw.getD 1 0).toNat < 254 ∧ raw.length + 254 ≤ 2 ^ 32 + (raw.getD 1 0).toNat := by
  have hlt := (raw.getD 1 0).toNat_lt
  unfold addUInt32 signedChar headerLen at *
  split_ifs <;> omega

theorem toInt32_nonneg_iff {n : ℕ} : 0 ≤ toInt32 n ↔ n % 2 ^ 32 < 2 ^ 31 := by
  unfold toInt32
  split_ifs <;> omega

theorem toInt32_le (n : ℕ) : toInt32 n ≤ n := by
  unfold toInt32
  split_ifs <;> omega

theorem parseMeta_of_fromRawValue {payload : Payload} (h : fromRawValue raw = .ok payload) :
    parseMeta raw = .ok payload.info := by
  unfold fromRawValue at h
  cases hmeta : parseMeta raw with
  | error status => simp [hmeta] at h
  | ok info =>
    simp only [hmeta] at h
    split_ifs at h
    split at h
    · cases h
    · cases h
      rfl

theorem Decodable.lt_of_accepted (h : Decodable raw) (hsize : headerLen < raw.length) (htype : isKnownType raw)
    (hfits : addUInt32 headerLen (signedChar (raw.getD 1 0)) < raw.length) : (raw.getD 1 0).toNat < 128 := by
  by_contra hbyte
  rw [not_lt] at hbyte
  exact absurd ((le_addUInt32_iff hsize hbyte).mpr (h.metaLen hsize htype hbyte)) (not_le.mpr hfits)

theorem Decodable.within_parseMeta (h : Decodable raw) : ∀ a ∈ parseMetaAccesses raw, a.Within raw := by
  intro a ha
  unfold parseMetaAccesses at ha
  split_ifs at ha with hsize htype hfits
  · cases ha
  · simp only [headerLen] at hsize
    rcases mem_pair.mp ha with rfl | rfl <;> simp only [Access.Within] <;> omega
  · rw [not_le] at hsize hfits
    obtain ⟨hlen, hoffset⟩ := addUInt32_of_lt (h.lt_of_accepted hsize htype hfits)
    rw [hoffset] at hfits
    simp only [mem_cons, not_mem_nil, or_false] at ha
    rcases ha with rfl | rfl | rfl <;> simp only [Access.Within, headerLen] at * <;> omega
  · cases mem_singleton.mp ha
    simp only [Access.Within, headerLen] at hsize ⊢
    omega

theorem accepted_of_parseMeta {info : Meta} (h : parseMeta raw = .ok info) :
    headerLen < raw.length ∧ isKnownType raw ∧
      addUInt32 headerLen (signedChar (raw.getD 1 0)) < raw.length ∧
      parseFromArray Meta.message (raw.drop headerLen) (signedChar (raw.getD 1 0)) = some info := by
  unfold parseMeta at h
  split_ifs at h with hsize htype hfits
  refine ⟨not_le.mp hsize, ?_, not_le.mp hfits, ?_⟩
  · unfold isKnownType
    tauto
  · split at h
    · cases h
    · cases h
      assumption

/-- `parseMeta` answers with a meta for the values that hold one. -/
theorem isOk_parseMeta_iff (h : (raw.getD 1 0).toNat < 128) :
    (∃ info, parseMeta raw = .ok info) ↔ HoldsMeta raw := by
  obtain ⟨hlen, hoffset⟩ := addUInt32_of_lt h
  have hparse : parseFromArray Meta.message (raw.drop headerLen) (signedChar (raw.getD 1 0)) =
      Meta.message.decode ((raw.drop headerLen).take (raw.getD 1 0).toNat) := by
    rw [parseFromArray, hlen, if_neg (by omega), Int.toNat_natCast]
  constructor
  · rintro ⟨info, hmeta⟩
    obtain ⟨hsize, htype, hfits, hsome⟩ := accepted_of_parseMeta hmeta
    rw [hoffset] at hfits
    rw [hparse] at hsome
    exact ⟨hsize, htype, h, hfits, by rw [hsome]; rfl⟩
  · rintro ⟨hsize, htype, -, hfits, hsome⟩
    obtain ⟨info, hinfo⟩ := Option.isSome_iff_exists.mp hsome
    refine ⟨info, ?_⟩
    rw [parseMeta, if_neg (not_le.mpr hsize), if_neg (by unfold isKnownType at htype; tauto),
      if_neg (by rw [hoffset]; exact not_le.mpr hfits), hparse, hinfo]

theorem Decodable.within_fromRawValue (h : Decodable raw) : ∀ a ∈ fromRawValueAccesses raw, a.Within raw := by
  intro a ha
  rcases mem_append.mp ha with ha | ha
  · exact h.within_parseMeta a ha
  · split at ha
    · cases ha
    · rename_i info hmeta
      obtain ⟨hsize, htype, hfits, -⟩ := accepted_of_parseMeta hmeta
      have hbyte := h.lt_of_accepted hsize htype hfits
      have hdata := h.dataLen ((isOk_parseMeta_iff hbyte).mp ⟨info, hmeta⟩)
      rw [if_neg (not_le.mpr hfits), mem_singleton, (addUInt32_of_lt hbyte).2] at ha
      subst ha
      have hle := toInt32_le (raw.length - (headerLen + (raw.getD 1 0).toNat))
      rw [(addUInt32_of_lt hbyte).2] at hfits
      exact ⟨toInt32_nonneg_iff.mpr hdata, by omega⟩

theorem Decodable.decodesSafely (h : Decodable raw) : DecodesSafely raw where
  fromRawValue := h.within_fromRawValue
  parseMeta := h.within_parseMeta
  filter a ha := by
    rcases mem_cons.mp ha with rfl | ha
    · have hpos := length_pos_iff.mpr h.nonempty
      simp only [Access.Within]
      omega
    · split_ifs at ha
      · cases ha
      · exact h.within_parseMeta a ha
  sameMeta _ := parseMeta_of_fromRawValue

/-- A negative length byte that passes the check goes to the parser. -/
theorem metaLen_of_within (h : ∀ a ∈ parseMetaAccesses raw, a.Within raw) (hsize : headerLen < raw.length)
    (htype : isKnownType raw) (hbyte : 128 ≤ (raw.getD 1 0).toNat) :
    (raw.getD 1 0).toNat < 254 ∧ raw.length + 254 ≤ 2 ^ 32 + (raw.getD 1 0).toNat := by
  rw [← le_addUInt32_iff hsize hbyte]
  by_contra hfits
  have hlt := (raw.getD 1 0).toNat_lt
  have hneg : signedChar (raw.getD 1 0) < 0 := by
    unfold signedChar
    split_ifs <;> omega
  have hparse : Access.parse headerLen (signedChar (raw.getD 1 0)) ∈ parseMetaAccesses raw := by
    rw [parseMetaAccesses, if_neg (not_le.mpr hsize), if_neg (not_not.mpr htype), if_neg hfits]
    exact mem_cons_of_mem _ (mem_cons_of_mem _ mem_cons_self)
  have hlength := (h _ hparse).1
  omega

theorem dataLen_of_within (h : ∀ a ∈ fromRawValueAccesses raw, a.Within raw) (hmeta : HoldsMeta raw) :
    (raw.length - (headerLen + (raw.getD 1 0).toNat)) % 2 ^ 32 < 2 ^ 31 := by
  obtain ⟨info, hok⟩ := (isOk_parseMeta_iff hmeta.2.2.1).mpr hmeta
  have hoffset := (addUInt32_of_lt hmeta.2.2.1).2
  have hparse : Access.parse (headerLen + (raw.getD 1 0).toNat)
      (toInt32 (raw.length - (headerLen + (raw.getD 1 0).toNat))) ∈ fromRawValueAccesses raw := by
    refine mem_append_right _ ?_
    simp only [hok, hoffset]
    rw [if_neg (not_le.mpr hmeta.2.2.2.1)]
    exact mem_singleton_self _
  exact toInt32_nonneg_iff.mp (h _ hparse).1

/-- The decoders keep within the bytes, and agree on the meta, for exactly the values that are not empty, have no
negative length byte that passes the check, and go on for less than two gigabytes after a meta that parses. -/
theorem decodes_safely_iff (raw : Bytes) : DecodesSafely raw ↔ Decodable raw := by
  refine ⟨fun h => ⟨?_, metaLen_of_within h.parseMeta, dataLen_of_within h.fromRawValue⟩, Decodable.decodesSafely⟩
  rintro rfl
  have hread := h.filter (.read 0 1) mem_cons_self
  simp [Access.Within] at hread

/-- The filter reads the first byte of an empty value, and a length byte of 255 becomes a length of -1. -/
theorem decodes_unsafely : ¬ DecodesSafely [] ∧ ¬ DecodesSafely [0, 255, 0] := by
  refine ⟨fun h => ?_, fun h => ?_⟩
  · have hread := h.filter (.read 0 1) mem_cons_self
    simp [Access.Within] at hread
  · have hparse := (h.parseMeta (.parse 2 (-1)) (by decide)).1
    omega

end Goblin.Store.RocksDBKVStore
