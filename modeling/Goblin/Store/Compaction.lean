import Goblin.Store.Payload

/-! `TTLCompactionFilter`: RocksDB drops a record when it is compacted exactly if a read would hide it. -/
namespace Goblin.Store.RocksDBKVStore

open Model (KeyType Status isTimeOut)
open Proto Lib.Wire

/-- `readKV` of a key that has the record; no result where it asserts that the record can be read. -/
def readRecord (now : UInt32) (key : KeyType) (raw : Bytes) : Option (Except Status (Bytes × UInt64)) :=
  match fromRawValue raw with
  | .ok ⟨info, .singleValue value⟩ =>
    if isTimeOut now.toNat info.deadline.toNat info.ttl.toNat then
      some (.error (.notFound (key ++ " not found")))
    else some (.ok (value, info.version))
  | _ => none

/-- `TTLCompactionFilter::Filter`: whether the record is dropped. -/
def filter (now : UInt32) (raw : Bytes) : Bool :=
  if signedChar (raw.getD 0 0) ≠ DataType.NORMAL_WITH_TTL.toNat then false
  else
    match parseMeta raw with
    | .ok info => isTimeOut now.toNat info.deadline.toNat info.ttl.toNat
    | .error _ => false

/-- The two ways in which a record is written. -/
inductive WriteCall
  | writeKV (value : Bytes) (version : UInt64) (updateTime : UInt32) (udfMeta : UserDefinedMeta)
  | writeTTLKV (value : Bytes) (version : UInt64) (ttl deadline updateTime : UInt32) (udfMeta : UserDefinedMeta)

namespace WriteCall

def raw : WriteCall → Bytes
  | writeKV value version updateTime udfMeta => toRawValue value version .SINGLE updateTime udfMeta
  | writeTTLKV value version ttl deadline updateTime udfMeta =>
    toRawValueTTL value version ttl deadline .SINGLE updateTime udfMeta

def mType : WriteCall → DataType
  | writeKV .. => .NORMAL
  | writeTTLKV .. => .NORMAL_WITH_TTL

def value : WriteCall → Bytes
  | writeKV value .. => value
  | writeTTLKV value .. => value

def info : WriteCall → Meta
  | writeKV value version updateTime udfMeta => (normalPayload value version .SINGLE updateTime udfMeta).info
  | writeTTLKV value version ttl deadline updateTime udfMeta =>
    (ttlPayload value version ttl deadline .SINGLE updateTime udfMeta).info

def payload (w : WriteCall) : Payload := ⟨w.info, .singleValue w.value⟩

theorem raw_eq (w : WriteCall) : w.raw = toRaw w.mType w.payload := by
  cases w <;> rfl

theorem mType_ne_OTHERS (w : WriteCall) : w.mType ≠ .OTHERS := by
  cases w <;> exact DataType.noConfusion

/-- Whether the record has expired. -/
def timedOut (w : WriteCall) (now : UInt32) : Bool := isTimeOut now.toNat w.info.deadline.toNat w.info.ttl.toNat

theorem timedOut_mono {w : WriteCall} {now later : UInt32} (h : w.timedOut now = true) (hle : now ≤ later) :
    w.timedOut later = true := by
  have hle : now.toNat ≤ later.toNat := hle
  unfold timedOut isTimeOut at h ⊢
  simp only [Bool.and_eq_true, decide_eq_true_eq] at h ⊢
  exact ⟨h.1, Nat.le_trans h.2 hle⟩

section Decoders

variable {w : WriteCall} (hmeta : (Meta.message.encode w.info).length ≤ 127)
include hmeta

/-- A value that cannot be serialized leaves a record that nothing can be read from. -/
theorem parseMeta_raw_of_large (hlarge : ¬ (Data.message.encode (.singleValue w.value)).length < 2 ^ 31) :
    ∃ status, parseMeta w.raw = .error status := by
  rw [raw_eq]
  cases hparse : parseMeta (toRaw w.mType w.payload) with
  | error status => exact ⟨status, rfl⟩
  | ok info =>
    have hlength := (decode_of_parseMeta_toRaw w.mType_ne_OTHERS hparse).2.1
    have hinfo : (Meta.message.encode w.payload.info).length ≤ 127 := hmeta
    rw [length_toRaw, serializeAsString_of_lt (by omega), payload, serializeAsString_of_not_lt hlarge,
      List.length_nil, ← payload] at hlength
    omega

theorem filter_raw (now : UInt32) :
    filter now w.raw = (decide ((Data.message.encode (.singleValue w.value)).length < 2 ^ 31) && w.timedOut now) := by
  cases hw : w with
  | writeKV value version updateTime udfMeta => simp [filter, raw, toRawValue, toRaw, timedOut, info, normalPayload,
      isTimeOut, signedChar, DataType.toNat, Model.INFINITE_TTL]
  | writeTTLKV value version ttl deadline updateTime udfMeta =>
    rw [← hw]
    have htype : signedChar (w.raw.getD 0 0) = DataType.NORMAL_WITH_TTL.toNat := by
      rw [hw]
      rfl
    unfold filter
    rw [if_neg (not_not_intro htype)]
    by_cases hsmall : (Data.message.encode (.singleValue w.value)).length < 2 ^ 31
    · have hparse : parseMeta w.raw = .ok w.info := by
        rw [raw_eq]
        exact parseMeta_toRaw_of_short w.mType_ne_OTHERS (Data.length_encode_singleValue_pos _) hmeta hsmall
      rw [hparse, decide_eq_true hsmall, Bool.true_and]
      rfl
    · obtain ⟨status, hparse⟩ := parseMeta_raw_of_large hmeta hsmall
      rw [hparse, decide_eq_false hsmall, Bool.false_and]

theorem readRecord_raw (now : UInt32) (key : KeyType) :
    readRecord now key w.raw =
      if (Data.message.encode (.singleValue w.value)).length < 2 ^ 31 then
        if w.timedOut now then some (.error (.notFound (key ++ " not found"))) else some (.ok (w.value, w.info.version))
      else none := by
  by_cases hsmall : (Data.message.encode (.singleValue w.value)).length < 2 ^ 31
  · have hread : fromRawValue w.raw = .ok w.payload := by
      rw [raw_eq]
      exact fromRawValue_toRaw w.mType_ne_OTHERS (Data.length_encode_singleValue_pos _) hmeta hsmall
    rw [readRecord, hread, if_pos hsmall]
    rfl
  · obtain ⟨status, hparse⟩ := parseMeta_raw_of_large hmeta hsmall
    rw [readRecord, fromRawValue, hparse, if_neg hsmall]

end Decoders

end WriteCall

/-- The compaction drops a record exactly when a read hides it, and the read then hides it for ever. -/
theorem compaction_drops_what_reads_hide (w : WriteCall) (hmeta : (Meta.message.encode w.info).length ≤ 127)
    (key : KeyType) (now : UInt32) :
    (filter now w.raw = true →
      ∀ later, now ≤ later → readRecord later key w.raw = some (.error (.notFound (key ++ " not found")))) ∧
    (readRecord now key w.raw = some (.error (.notFound (key ++ " not found"))) → filter now w.raw = true) := by
  constructor
  · intro hdrop later hlater
    rw [w.filter_raw hmeta, Bool.and_eq_true] at hdrop
    obtain ⟨hsmall, hout⟩ := hdrop
    rw [w.readRecord_raw hmeta, if_pos (of_decide_eq_true hsmall), if_pos (WriteCall.timedOut_mono hout hlater)]
  · intro hhidden
    rw [w.readRecord_raw hmeta] at hhidden
    split_ifs at hhidden with hsmall hout
    · rw [w.filter_raw hmeta, decide_eq_true hsmall, Bool.true_and]
      exact hout
    · cases hhidden

/-- A record that is alive at 104 and dropped at 105. -/
theorem compaction_drops_at_deadline :
    filter 104 (WriteCall.writeTTLKV [118] 1 5 105 100 {}).raw = false ∧
    filter 105 (WriteCall.writeTTLKV [118] 1 5 105 100 {}).raw = true ∧
    ∀ later, 105 ≤ later →
      readRecord later "k" (WriteCall.writeTTLKV [118] 1 5 105 100 {}).raw =
        some (.error (.notFound "k not found")) := by
  have hdrop : filter 105 (WriteCall.writeTTLKV [118] 1 5 105 100 {}).raw = true := by decide +kernel
  exact ⟨by decide +kernel, hdrop, (compaction_drops_what_reads_hide _ (by decide +kernel) "k" 105).1 hdrop⟩

end Goblin.Store.RocksDBKVStore
