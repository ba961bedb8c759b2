import Goblin.Lib.Wire
import Goblin.Model.Types

/-! The records of RocksDB as bytes: a header of two characters, the serialized meta and the
serialized data. -/
namespace Goblin.Proto

open Lib.Wire List Option

/-- Strings are sequences of bytes. -/
structure UserDefinedMeta where
  uintField : List UInt64 := []
  strField : List Bytes := []
  deriving DecidableEq, Repr

inductive OpType
  | SINGLE | SET_ADD | SET_REMOVE
  deriving DecidableEq, Repr

inductive DataType
  | NORMAL | NORMAL_WITH_TTL | OTHERS
  deriving DecidableEq, Repr

structure Meta where
  dataType : DataType := .NORMAL
  version : UInt64 := 0
  ttl : UInt32 := 0
  deadline : UInt32 := 0
  opType : OpType := .SINGLE
  updateTime : UInt32 := 0
  udfMeta : Option UserDefinedMeta := none
  deriving DecidableEq, Repr

inductive Data
  | notSet
  | singleValue (value : Bytes)
  | multiValue (values : List Bytes)
  deriving DecidableEq, Repr

structure Payload where
  info : Meta := {}
  data : Data := .notSet
  deriving DecidableEq, Repr

namespace UserDefinedMeta

/-- The numbers are packed into one block. -/
def fields (m : UserDefinedMeta) : List Field :=
  (if m.uintField = [] then [] else [.bytes 1 (varint.writeAll (m.uintField.map UInt64.toNat))]) ++
    m.strField.map (.bytes 2)

def set (m : UserDefinedMeta) : Field → Option UserDefinedMeta
  | .varint 1 value => some { m with uintField := m.uintField ++ [UInt64.ofNat value] }
  | .bytes 1 payload =>
    (varint.readAll payload).map fun values =>
      { m with uintField := m.uintField ++ values.map UInt64.ofNat }
  | .bytes 2 payload => some { m with strField := m.strField ++ [payload] }
  | _ => some m

theorem foldlM_strField (m : UserDefinedMeta) (strs : List Bytes) :
    (strs.map (Field.bytes 2)).foldlM set m = some { m with strField := m.strField ++ strs } := by
  induction strs generalizing m with
  | nil => simp
  | cons str strs ih =>
    have hset : set m (.bytes 2 str) = some { m with strField := m.strField ++ [str] } := rfl
    rw [map_cons, foldlM_cons, hset]
    change (strs.map (Field.bytes 2)).foldlM set { m with strField := m.strField ++ [str] } = _
    rw [ih]
    simp

theorem foldlM_fields (m : UserDefinedMeta) : m.fields.foldlM set {} = some m := by
  have hnumbers : (if m.uintField = [] then []
      else [Field.bytes 1 (varint.writeAll (m.uintField.map UInt64.toNat))]).foldlM set {} =
        some ({ uintField := m.uintField } : UserDefinedMeta) := by
    split_ifs with hnil
    · rw [hnil]
      rfl
    · have hset : set {} (.bytes 1 (varint.writeAll (m.uintField.map UInt64.toNat))) =
          some ({ uintField := m.uintField } : UserDefinedMeta) := by
        simp [set, varint.readAll_writeAll, List.map_map, Function.comp_def]
      rw [foldlM_cons, hset]
      rfl
  rw [fields, foldlM_append, hnumbers]
  exact foldlM_strField _ _

theorem length_fields (m : UserDefinedMeta) :
    m.fields.length = (if m.uintField = [] then 0 else 1) + m.strField.length := by
  unfold fields
  split_ifs
  · simp
  · simp [Nat.add_comm]

theorem length_set_le (m : UserDefinedMeta) (f : Field) (m' : UserDefinedMeta)
    (h : m.set f = some m') : m'.fields.length ≤ m.fields.length + 1 := by
  have hnumbers (numbers : List UInt64) :
      (if numbers = [] then 0 else 1) ≤ (if m.uintField = [] then 0 else 1) + 1 := by
    split_ifs <;> omega
  rw [length_fields, length_fields]
  unfold set at h
  split at h
  · cases h
    have hle := hnumbers (m.uintField ++ [UInt64.ofNat ‹ℕ›])
    dsimp only
    omega
  · obtain ⟨values, -, rfl⟩ := map_eq_some_iff.mp h
    have hle := hnumbers (m.uintField ++ values.map UInt64.ofNat)
    dsimp only
    omega
  · cases h
    simp only [length_append, length_singleton]
    omega
  · cases h
    omega

def message : Message UserDefinedMeta where
  empty := {}
  fields := fields
  set := set
  fields_empty := rfl
  foldlM_fields := foldlM_fields
  length_set_le := length_set_le

end UserDefinedMeta

def DataType.toNat : DataType → ℕ
  | .NORMAL => 0
  | .NORMAL_WITH_TTL => 1
  | .OTHERS => 126

def DataType.ofNat? : ℕ → Option DataType
  | 0 => some .NORMAL
  | 1 => some .NORMAL_WITH_TTL
  | 126 => some .OTHERS
  | _ => none

def OpType.toNat : OpType → ℕ
  | .SINGLE => 0
  | .SET_ADD => 1
  | .SET_REMOVE => 2

def OpType.ofNat? : ℕ → Option OpType
  | 0 => some .SINGLE
  | 1 => some .SET_ADD
  | 2 => some .SET_REMOVE
  | _ => none

namespace Meta

def udfFields (udfMeta : Option UserDefinedMeta) : List Field :=
  match udfMeta with
  | none => []
  | some udfMeta => [.bytes 7 (UserDefinedMeta.message.encode udfMeta)]

def fields (m : Meta) : List Field :=
  optional 1 m.dataType.toNat ++ (optional 2 m.version.toNat ++ (optional 3 m.ttl.toNat ++
    (optional 4 m.deadline.toNat ++ (optional 5 m.opType.toNat ++ (optional 6 m.updateTime.toNat ++
      udfFields m.udfMeta)))))

/-- Fields that are not known, or hold no member of their enumeration, change nothing. -/
def set (m : Meta) : Field → Option Meta
  | .varint 1 value => some { m with dataType := (DataType.ofNat? value).getD m.dataType }
  | .varint 2 value => some { m with version := UInt64.ofNat value }
  | .varint 3 value => some { m with ttl := UInt32.ofNat value }
  | .varint 4 value => some { m with deadline := UInt32.ofNat value }
  | .varint 5 value => some { m with opType := (OpType.ofNat? value).getD m.opType }
  | .varint 6 value => some { m with updateTime := UInt32.ofNat value }
  | .bytes 7 payload =>
    (UserDefinedMeta.message.merge (m.udfMeta.getD {}) payload).map fun udfMeta =>
      { m with udfMeta := some udfMeta }
  | _ => some m

theorem foldlM_udfFields (m : Meta) (h : m.udfMeta = none) (udfMeta : Option UserDefinedMeta) :
    (udfFields udfMeta).foldlM set m = some { m with udfMeta := udfMeta } := by
  cases udfMeta with
  | none =>
    obtain ⟨dataType, version, ttl, deadline, opType, updateTime, udfMeta⟩ := m
    cases h
    rfl
  | some udfMeta =>
    have hmerge : UserDefinedMeta.message.merge (m.udfMeta.getD {})
        (UserDefinedMeta.message.encode udfMeta) = some udfMeta := by
      rw [h]
      exact UserDefinedMeta.message.decode_encode udfMeta
    have hset : set m (.bytes 7 (UserDefinedMeta.message.encode udfMeta)) =
        some { m with udfMeta := some udfMeta } := by
      simp only [set, hmerge, map_some]
    rw [udfFields, foldlM_cons, hset]
    rfl

theorem foldlM_fields (m : Meta) : m.fields.foldlM set {} = some m := by
  -- the message fills up in the order of the field numbers
  have h1 : (optional 1 m.dataType.toNat).foldlM set {} = some { dataType := m.dataType } := by
    cases m.dataType <;> rfl
  have h2 : (optional 2 m.version.toNat).foldlM set { dataType := m.dataType } =
      some { dataType := m.dataType, version := m.version } := by
    refine foldlM_optional (fun h => ?_) (by simp [set])
    have hzero : m.version = 0 := UInt64.toNat_inj.mp h
    rw [hzero]
  have h3 : (optional 3 m.ttl.toNat).foldlM set { dataType := m.dataType, version := m.version } =
      some { dataType := m.dataType, version := m.version, ttl := m.ttl } := by
    refine foldlM_optional (fun h => ?_) (by simp [set])
    have hzero : m.ttl = 0 := UInt32.toNat_inj.mp h
    rw [hzero]
  have h4 : (optional 4 m.deadline.toNat).foldlM set
      { dataType := m.dataType, version := m.version, ttl := m.ttl } =
      some { dataType := m.dataType, version := m.version, ttl := m.ttl, deadline := m.deadline } := by
    refine foldlM_optional (fun h => ?_) (by simp [set])
    have hzero : m.deadline = 0 := UInt32.toNat_inj.mp h
    rw [hzero]
  have h5 : (optional 5 m.opType.toNat).foldlM set
      { dataType := m.dataType, version := m.version, ttl := m.ttl, deadline := m.deadline } =
      some { m with updateTime := 0, udfMeta := none } := by
    cases m.opType <;> rfl
  have h6 : (optional 6 m.updateTime.toNat).foldlM set { m with updateTime := 0, udfMeta := none } =
      some { m with udfMeta := none } := by
    refine foldlM_optional (fun h => ?_) (by simp [set])
    have hzero : m.updateTime = 0 := UInt32.toNat_inj.mp h
    rw [hzero]
  have h7 := foldlM_udfFields { m with udfMeta := none } rfl m.udfMeta
  simp only [fields, foldlM_append, bind_eq_bind, h1, h2, h3, h4, h5, h6, h7,
    bind_some]

theorem length_set_le (m : Meta) (f : Field) (m' : Meta) (h : m.set f = some m') :
    m'.fields.length ≤ m.fields.length + 1 := by
  have hudf (udfMeta : UserDefinedMeta) : (udfFields (some udfMeta)).length = 1 := rfl
  simp only [fields, length_append]
  unfold set at h
  split at h
  · cases h
    have hle := length_optional_le 1 ((DataType.ofNat? ‹ℕ›).getD m.dataType).toNat
    dsimp only
    omega
  · cases h
    have hle := length_optional_le 2 (UInt64.ofNat ‹ℕ›).toNat
    dsimp only
    omega
  · cases h
    have hle := length_optional_le 3 (UInt32.ofNat ‹ℕ›).toNat
    dsimp only
    omega
  · cases h
    have hle := length_optional_le 4 (UInt32.ofNat ‹ℕ›).toNat
    dsimp only
    omega
  · cases h
    have hle := length_optional_le 5 ((OpType.ofNat? ‹ℕ›).getD m.opType).toNat
    dsimp only
    omega
  · cases h
    have hle := length_optional_le 6 (UInt32.ofNat ‹ℕ›).toNat
    dsimp only
    omega
  · obtain ⟨udfMeta, -, rfl⟩ := map_eq_some_iff.mp h
    dsimp only
    rw [hudf]
    omega
  · cases h
    omega

def message : Message Meta where
  empty := {}
  fields := fields
  set := set
  fields_empty := rfl
  foldlM_fields := foldlM_fields
  length_set_le := length_set_le

end Meta

def SingleValue.set (value : Bytes) : Field → Option Bytes
  | .bytes 1 payload => some payload
  | _ => some value

def SingleValue.message : Message Bytes where
  empty := []
  fields value := if value = [] then [] else [.bytes 1 value]
  set := SingleValue.set
  fields_empty := rfl
  foldlM_fields value := by
    split_ifs with h
    · rw [h]
      rfl
    · rfl
  length_set_le value f value' _ := by
    split_ifs <;> simp

def MultiValue.set (values : List Bytes) : Field → Option (List Bytes)
  | .bytes 1 payload => some (values ++ [payload])
  | _ => some values

theorem MultiValue.foldlM_fields (values more : List Bytes) :
    (more.map (Field.bytes 1)).foldlM MultiValue.set values = some (values ++ more) := by
  induction more generalizing values with
  | nil => simp
  | cons value more ih =>
    rw [map_cons, foldlM_cons]
    change (more.map (Field.bytes 1)).foldlM MultiValue.set (values ++ [value]) = _
    rw [ih]
    simp

def MultiValue.message : Message (List Bytes) where
  empty := []
  fields values := values.map (.bytes 1)
  set := MultiValue.set
  fields_empty := rfl
  foldlM_fields values := MultiValue.foldlM_fields [] values
  length_set_le values f values' h := by
    unfold MultiValue.set at h
    split at h <;> cases h <;> simp

namespace Data

def fields : Data → List Field
  | .notSet => []
  | .singleValue value => [.bytes 2 (SingleValue.message.encode value)]
  | .multiValue values => [.bytes 3 (MultiValue.message.encode values)]

/-- The alternatives of the `oneof`: a field of the other alternative starts afresh. -/
def single : Data → Bytes
  | .singleValue value => value
  | _ => []

def multi : Data → List Bytes
  | .multiValue values => values
  | _ => []

def set (d : Data) : Field → Option Data
  | .bytes 2 payload => (SingleValue.message.merge d.single payload).map .singleValue
  | .bytes 3 payload => (MultiValue.message.merge d.multi payload).map .multiValue
  | _ => some d

theorem foldlM_fields (d : Data) : d.fields.foldlM set .notSet = some d := by
  cases d with
  | notSet => rfl
  | singleValue value =>
    have hset : set .notSet (.bytes 2 (SingleValue.message.encode value)) = some (.singleValue value) := by
      have hmerge := SingleValue.message.decode_encode value
      exact congrArg (Option.map Data.singleValue) hmerge
    rw [fields, foldlM_cons, hset]
    rfl
  | multiValue values =>
    have hset : set .notSet (.bytes 3 (MultiValue.message.encode values)) = some (.multiValue values) := by
      have hmerge := MultiValue.message.decode_encode values
      exact congrArg (Option.map Data.multiValue) hmerge
    rw [fields, foldlM_cons, hset]
    rfl

def message : Message Data where
  empty := .notSet
  fields := fields
  set := set
  fields_empty := rfl
  foldlM_fields := foldlM_fields
  length_set_le d f d' _ := by
    cases d' <;> simp [fields]

theorem length_encode_singleValue_pos (value : Bytes) :
    0 < (message.encode (.singleValue value)).length := by
  have hpos := field.length_write_pos (.bytes 2 (SingleValue.message.encode value))
  simpa [Message.encode, message, fields, Codec.writeAll] using hpos

end Data

end Goblin.Proto

namespace Goblin.Store.RocksDBKVStore

open List Option

open Model (Status)
open Proto Lib.Wire

def headerLen : ℕ := 2

/-- `char` is signed. -/
def signedChar (b : UInt8) : ℤ := if b.toNat < 128 then b.toNat else b.toNat - 256

/-- The sum of a `uint32_t` and an `int` is a `uint32_t`. -/
def addUInt32 (a : ℕ) (b : ℤ) : ℕ := ((a + b) % 2 ^ 32).toNat

/-- A `size_t` that is passed as an `int`. -/
def toInt32 (n : ℕ) : ℤ := if n % 2 ^ 32 < 2 ^ 31 then (n % 2 ^ 32 : ℕ) else (n % 2 ^ 32 : ℕ) - 2 ^ 32

/-- No bytes have a negative length. -/
def parseFromArray {M : Type} (msg : Message M) (bytes : Bytes) (size : ℤ) : Option M :=
  if size < 0 then none else msg.decode (bytes.take size.toNat)

/-- Protobuf serializes no message of two gigabytes or more; the string stays empty. -/
def serializeAsString {M : Type} (msg : Message M) (m : M) : Bytes :=
  if (msg.encode m).length < 2 ^ 31 then msg.encode m else []

/-- `mMetaLen` keeps the low eight bits of the size of the meta. -/
def toRaw (mType : DataType) (payload : Payload) : Bytes :=
  UInt8.ofNat mType.toNat :: UInt8.ofNat (Meta.message.encode payload.info).length ::
    (serializeAsString Meta.message payload.info ++ serializeAsString Data.message payload.data)

/-- The loops over the fields create the message only if there is a field to add. -/
def addUdfMeta (udfMeta : UserDefinedMeta) : Option UserDefinedMeta :=
  if udfMeta = {} then none else some udfMeta

def normalPayload (value : Bytes) (version : UInt64) (opType : OpType) (updateTime : UInt32)
    (udfMeta : UserDefinedMeta) : Payload where
  info := { version, updateTime, udfMeta := addUdfMeta udfMeta, opType, dataType := .NORMAL }
  data := .singleValue value

def ttlPayload (value : Bytes) (version : UInt64) (ttl deadline : UInt32) (opType : OpType)
    (updateTime : UInt32) (udfMeta : UserDefinedMeta) : Payload where
  info :=
    { version, opType, dataType := .NORMAL_WITH_TTL, ttl, deadline, updateTime,
      udfMeta := addUdfMeta udfMeta }
  data := .singleValue value

def toRawValue (value : Bytes) (version : UInt64) (opType : OpType) (updateTime : UInt32)
    (udfMeta : UserDefinedMeta) : Bytes :=
  toRaw .NORMAL (normalPayload value version opType updateTime udfMeta)

def toRawValueTTL (value : Bytes) (version : UInt64) (ttl deadline : UInt32) (opType : OpType)
    (updateTime : UInt32) (udfMeta : UserDefinedMeta) : Bytes :=
  toRaw .NORMAL_WITH_TTL (ttlPayload value version ttl deadline opType updateTime udfMeta)

def parseMeta (raw : Bytes) : Except Status Meta :=
  if raw.length ≤ headerLen then .error (.error "corrupted header size")
  else if signedChar (raw.getD 0 0) ≠ DataType.NORMAL.toNat ∧
      signedChar (raw.getD 0 0) ≠ DataType.NORMAL_WITH_TTL.toNat then
    .error (.error "invalid type in header")
  else if raw.length ≤ addUInt32 headerLen (signedChar (raw.getD 1 0)) then
    .error (.error "corrupted payload")
  else
    match parseFromArray Meta.message (raw.drop headerLen) (signedChar (raw.getD 1 0)) with
    | none => .error (.error "corrupted payload")
    | some info => .ok info

/-- `fromRawValue` starts with the steps of `parseMeta`. -/
def fromRawValue (raw : Bytes) : Except Status Payload :=
  match parseMeta raw with
  | .error status => .error status
  | .ok info =>
    let dataOffset := addUInt32 headerLen (signedChar (raw.getD 1 0))
    if raw.length ≤ dataOffset then .error (.error "corrupted payload")
    else
      match parseFromArray Data.message (raw.drop dataOffset) (toInt32 (raw.length - dataOffset)) with
      | none => .error (.error "corrupted payload")
      | some data => .ok ⟨info, data⟩

section RoundTrip

variable {mType : DataType} {payload : Payload}

theorem serializeAsString_of_lt {M : Type} {msg : Message M} {m : M} (h : (msg.encode m).length < 2 ^ 31) :
    serializeAsString msg m = msg.encode m :=
  if_pos h

theorem serializeAsString_of_not_lt {M : Type} {msg : Message M} {m : M} (h : ¬ (msg.encode m).length < 2 ^ 31) :
    serializeAsString msg m = [] :=
  if_neg h

theorem length_toRaw : (toRaw mType payload).length =
    2 + (serializeAsString Meta.message payload.info).length +
      (serializeAsString Data.message payload.data).length := by
  simp only [toRaw, length_cons, length_append]
  omega

theorem signedChar_ofNat (n : ℕ) :
    signedChar (UInt8.ofNat n) = if n % 256 < 128 then ((n % 256 : ℕ) : ℤ) else (n % 256 : ℕ) - 256 := by
  simp only [signedChar, UInt8.toNat_ofNat']

theorem addUInt32_headerLen {n : ℕ} (h : n < 128) : addUInt32 headerLen (n : ℤ) = 2 + n := by
  simp only [addUInt32, headerLen]
  omega

theorem parseFromArray_nat {M : Type} (msg : Message M) (bytes : Bytes) (n : ℕ) :
    parseFromArray msg bytes (n : ℤ) = msg.decode (bytes.take n) := by
  rw [parseFromArray, if_neg (by omega), Int.toNat_natCast]

theorem parseFromArray_of_neg {M : Type} (msg : Message M) (bytes : Bytes) {size : ℤ} (h : size < 0) :
    parseFromArray msg bytes size = none :=
  if_pos h

/-- What is left of `parseMeta` once the header is accepted. -/
theorem parseMeta_toRaw (hmType : mType ≠ .OTHERS) (hsize : ¬ (toRaw mType payload).length ≤ headerLen) :
    parseMeta (toRaw mType payload) =
      if (toRaw mType payload).length ≤ addUInt32 headerLen
          (signedChar (UInt8.ofNat (Meta.message.encode payload.info).length)) then
        .error (.error "corrupted payload")
      else
        match parseFromArray Meta.message
            (serializeAsString Meta.message payload.info ++ serializeAsString Data.message payload.data)
            (signedChar (UInt8.ofNat (Meta.message.encode payload.info).length)) with
        | none => .error (.error "corrupted payload")
        | some info => .ok info := by
  have htype : ¬ (signedChar ((toRaw mType payload).getD 0 0) ≠ DataType.NORMAL.toNat ∧
      signedChar ((toRaw mType payload).getD 0 0) ≠ DataType.NORMAL_WITH_TTL.toNat) := by
    cases mType with
    | NORMAL => exact fun h => h.1 rfl
    | NORMAL_WITH_TTL => exact fun h => h.2 rfl
    | OTHERS => exact absurd rfl hmType
  rw [parseMeta, if_neg hsize, if_neg htype]
  rfl

/-- A meta that is read has been parsed from as many bytes as the header says. -/
theorem decode_of_parseMeta_toRaw {info : Meta} (hmType : mType ≠ .OTHERS)
    (h : parseMeta (toRaw mType payload) = .ok info) :
    (Meta.message.encode payload.info).length % 256 < 128 ∧
      2 + (Meta.message.encode payload.info).length % 256 < (toRaw mType payload).length ∧
      Meta.message.decode
        ((serializeAsString Meta.message payload.info ++ serializeAsString Data.message payload.data).take
          ((Meta.message.encode payload.info).length % 256)) = some info := by
  by_cases hsize : (toRaw mType payload).length ≤ headerLen
  · rw [parseMeta, if_pos hsize] at h
    cases h
  rw [parseMeta_toRaw hmType hsize, signedChar_ofNat] at h
  by_cases hlow : (Meta.message.encode payload.info).length % 256 < 128
  · rw [if_pos hlow, addUInt32_headerLen hlow, parseFromArray_nat] at h
    split_ifs at h with hlong
    refine ⟨hlow, Nat.lt_of_not_le hlong, ?_⟩
    split at h
    · cases h
    · rename_i info' hdecode
      cases h
      exact hdecode
  · rw [if_neg hlow, parseFromArray_of_neg _ _ (by omega)] at h
    split_ifs at h

theorem decode_take_data {data : Data} {n : ℕ} {info : Meta}
    (h : Meta.message.decode ((Data.message.encode data).take n) = some info) : info = {} := by
  obtain ⟨fs, hfs, hinfo⟩ := bind_eq_some_iff.mp h
  have hone : (Data.fields data).length ≤ 1 := by cases data <;> simp [Data.fields]
  by_cases hn : n < (Data.message.encode data).length
  · have hlt : fs.length < (Data.fields data).length := field.length_lt_of_readUpTo_take hn hfs
    have hnil : fs = [] := length_eq_zero_iff.mp (by omega)
    rw [hnil] at hinfo
    exact (Option.some.inj hinfo).symm
  · rw [take_of_length_le (Nat.le_of_not_lt hn)] at hfs
    have hall : fs = Data.fields data := Option.some.inj (hfs.symm.trans (field.readAll_writeAll _))
    rw [hall] at hinfo
    cases data with
    | notSet | singleValue value | multiValue values => exact (Option.some.inj hinfo).symm

theorem short_of_parseMeta_toRaw (hmType : mType ≠ .OTHERS)
    (h : parseMeta (toRaw mType payload) = .ok payload.info) :
    (Meta.message.encode payload.info).length ≤ 127 ∧ (Data.message.encode payload.data).length < 2 ^ 31 := by
  obtain ⟨hlow, hlength, hdecode⟩ := decode_of_parseMeta_toRaw hmType h
  rw [length_toRaw] at hlength
  by_cases hinfo : (Meta.message.encode payload.info).length < 2 ^ 31
  · rw [serializeAsString_of_lt hinfo] at hdecode hlength
    have hle := Nat.mod_le (Meta.message.encode payload.info).length 256
    rw [take_append_of_le_length hle] at hdecode
    have hall : ¬ (Meta.message.encode payload.info).length % 256 < (Meta.message.encode payload.info).length :=
      fun hlt => Meta.message.decode_take_ne payload.info hlt hdecode
    refine ⟨by omega, ?_⟩
    by_contra hdata
    rw [serializeAsString_of_not_lt hdata, length_nil] at hlength
    omega
  · -- what is parsed in place of the meta is the beginning of the data
    rw [serializeAsString_of_not_lt hinfo, nil_append] at hdecode
    have hempty : payload.info = {} := by
      by_cases hdata : (Data.message.encode payload.data).length < 2 ^ 31
      · rw [serializeAsString_of_lt hdata] at hdecode
        exact decode_take_data hdecode
      · rw [serializeAsString_of_not_lt hdata, take_nil] at hdecode
        exact (Option.some.inj hdecode).symm
    rw [hempty] at hinfo
    exact absurd (by decide) hinfo

theorem parseMeta_toRaw_of_short (hmType : mType ≠ .OTHERS)
    (hpos : 0 < (Data.message.encode payload.data).length)
    (hinfo : (Meta.message.encode payload.info).length ≤ 127)
    (hdata : (Data.message.encode payload.data).length < 2 ^ 31) :
    parseMeta (toRaw mType payload) = .ok payload.info := by
  have hlt : (Meta.message.encode payload.info).length < 2 ^ 31 := by omega
  have hlow : (Meta.message.encode payload.info).length % 256 < 128 := by omega
  have hmod : (Meta.message.encode payload.info).length % 256 = (Meta.message.encode payload.info).length :=
    Nat.mod_eq_of_lt (by omega)
  have hlength : (toRaw mType payload).length =
      2 + (Meta.message.encode payload.info).length + (Data.message.encode payload.data).length := by
    rw [length_toRaw, serializeAsString_of_lt hlt, serializeAsString_of_lt hdata]
  rw [parseMeta_toRaw hmType (by rw [hlength, headerLen]; omega), signedChar_ofNat, if_pos hlow,
    addUInt32_headerLen hlow, hlength, if_neg (by omega), parseFromArray_nat, hmod, serializeAsString_of_lt hlt,
    take_left, Meta.message.decode_encode]

theorem parseMeta_toRaw_iff (hmType : mType ≠ .OTHERS) (hpos : 0 < (Data.message.encode payload.data).length) :
    parseMeta (toRaw mType payload) = .ok payload.info ↔
      (Meta.message.encode payload.info).length ≤ 127 ∧ (Data.message.encode payload.data).length < 2 ^ 31 :=
  ⟨short_of_parseMeta_toRaw hmType, fun h => parseMeta_toRaw_of_short hmType hpos h.1 h.2⟩

theorem fromRawValue_toRaw (hmType : mType ≠ .OTHERS) (hpos : 0 < (Data.message.encode payload.data).length)
    (hinfo : (Meta.message.encode payload.info).length ≤ 127)
    (hdata : (Data.message.encode payload.data).length < 2 ^ 31) :
    fromRawValue (toRaw mType payload) = .ok payload := by
  have hlt : (Meta.message.encode payload.info).length < 2 ^ 31 := by omega
  have hlen : signedChar ((toRaw mType payload).getD 1 0) = (Meta.message.encode payload.info).length := by
    change signedChar (UInt8.ofNat _) = _
    rw [signedChar_ofNat, Nat.mod_eq_of_lt (by omega), if_pos (by omega)]
  have hoffset : addUInt32 headerLen (signedChar ((toRaw mType payload).getD 1 0)) =
      2 + (Meta.message.encode payload.info).length := by
    rw [hlen, addUInt32_headerLen (by omega)]
  have hlength : (toRaw mType payload).length =
      2 + (Meta.message.encode payload.info).length + (Data.message.encode payload.data).length := by
    rw [length_toRaw, serializeAsString_of_lt hlt, serializeAsString_of_lt hdata]
  have hdrop : (toRaw mType payload).drop (2 + (Meta.message.encode payload.info).length) =
      Data.message.encode payload.data := by
    rw [Nat.add_comm, toRaw, serializeAsString_of_lt hlt, serializeAsString_of_lt hdata]
    exact drop_left
  have hrest : (toRaw mType payload).length - (2 + (Meta.message.encode payload.info).length) =
      (Data.message.encode payload.data).length := by
    rw [hlength]
    omega
  have hsize : ¬ (toRaw mType payload).length ≤ 2 + (Meta.message.encode payload.info).length := by
    rw [hlength]
    omega
  have hint : toInt32 (Data.message.encode payload.data).length = (Data.message.encode payload.data).length := by
    rw [toInt32, Nat.mod_eq_of_lt (by omega), if_pos hdata]
  simp only [fromRawValue, parseMeta_toRaw_of_short hmType hpos hinfo hdata, hoffset, if_neg hsize, hdrop, hrest,
    hint, parseFromArray_nat, take_length, Data.message.decode_encode]

theorem roundTrip_iff (hmType : mType ≠ .OTHERS) (hpos : 0 < (Data.message.encode payload.data).length) :
    fromRawValue (toRaw mType payload) = .ok payload ∧
        parseMeta (toRaw mType payload) = .ok payload.info ↔
      (Meta.message.encode payload.info).length ≤ 127 ∧
        (Data.message.encode payload.data).length < 2 ^ 31 := by
  rw [parseMeta_toRaw_iff hmType hpos]
  exact ⟨And.right, fun h => ⟨fromRawValue_toRaw hmType hpos h.1 h.2, h⟩⟩

end RoundTrip

/-- Both kinds of records are read back exactly when their meta takes at most 127 bytes and their data
less than two gigabytes. -/
theorem fromRawValue_toRawValue_iff (value : Bytes) (version : UInt64) (ttl deadline : UInt32)
    (opType : OpType) (updateTime : UInt32) (udfMeta : UserDefinedMeta) :
    (fromRawValue (toRawValue value version opType updateTime udfMeta) =
          .ok (normalPayload value version opType updateTime udfMeta) ∧
        parseMeta (toRawValue value version opType updateTime udfMeta) =
          .ok (normalPayload value version opType updateTime udfMeta).info ↔
      (Meta.message.encode (normalPayload value version opType updateTime udfMeta).info).length ≤ 127 ∧
        (Data.message.encode (.singleValue value)).length < 2 ^ 31) ∧
    (fromRawValue (toRawValueTTL value version ttl deadline opType updateTime udfMeta) =
          .ok (ttlPayload value version ttl deadline opType updateTime udfMeta) ∧
        parseMeta (toRawValueTTL value version ttl deadline opType updateTime udfMeta) =
          .ok (ttlPayload value version ttl deadline opType updateTime udfMeta).info ↔
      (Meta.message.encode
          (ttlPayload value version ttl deadline opType updateTime udfMeta).info).length ≤ 127 ∧
        (Data.message.encode (.singleValue value)).length < 2 ^ 31) := by
  have hdata := Data.length_encode_singleValue_pos value
  exact ⟨roundTrip_iff (by decide) hdata, roundTrip_iff (by decide) hdata⟩

/-- One string of 130 characters among the user defined fields. -/
def longUdfMeta : UserDefinedMeta := { strField := [List.replicate 130 97] }

set_option maxRecDepth 4000 in
theorem longUdfMeta_corrupted :
    (Meta.message.encode (normalPayload [118] 1 .SINGLE 0 longUdfMeta).info).length = 138 ∧
    fromRawValue (toRawValue [118] 1 .SINGLE 0 longUdfMeta) = .error (.error "corrupted payload") ∧
    parseMeta (toRawValue [118] 1 .SINGLE 0 longUdfMeta) = .error (.error "corrupted payload") := by
  exact ⟨rfl, rfl, rfl⟩

end Goblin.Store.RocksDBKVStore
