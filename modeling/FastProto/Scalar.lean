import FastProto.DecodeRecords
import FastProto.EncodeRecords

/-! # Scalar values on the wire

`ScalarType.Holds` is the range of values of a scalar type. A value of the range has a payload, which
decodes to the value itself, and every payload decodes to a value of the range. -/

namespace FastProto

open Lib

/-- **The values of a scalar type.** A `float` is one whose pattern widens from 32 bits. -/
def ScalarType.Holds (scalar : ScalarType) (value : PyVal) : Prop :=
  match scalar with
  | .int32 | .sint32 | .sfixed32 => ∃ i : Int, value = .int i ∧ -2 ^ 31 ≤ i ∧ i < 2 ^ 31
  | .int64 | .sint64 | .sfixed64 => ∃ i : Int, value = .int i ∧ -2 ^ 63 ≤ i ∧ i < 2 ^ 63
  | .uint32 | .fixed32 => ∃ i : Int, value = .int i ∧ 0 ≤ i ∧ i < 2 ^ 32
  | .uint64 | .fixed64 => ∃ i : Int, value = .int i ∧ 0 ≤ i ∧ i < 2 ^ 64
  | .bool => ∃ b, value = .bool b
  | .float => ∃ bits, value = .float (FloatBits.widen bits)
  | .double => ∃ bits, value = .float bits
  | .string => ∃ s, value = .str s
  | .bytes => ∃ b, value = .bytes b

/-! ## Extraction in range -/

section Extract

variable {V : Type} {i : Int}

/-- Extracting an `i32` in range. -/
theorem extractI32_int (h : -2 ^ 31 ≤ i ∧ i < 2 ^ 31) :
    ∃ v : Int32, (PyShape.int i : PyShape V).extractI32 = .ok v ∧ v.toInt = i := by
  refine ⟨Int32.ofInt i, ?_, Int32.toInt_ofInt_of_le (by omega) (by omega)⟩
  unfold PyShape.extractI32 PyShape.index
  rw [ok_bind, if_pos h]

/-- Extracting an `i64` in range. -/
theorem extractI64_int (h : -2 ^ 63 ≤ i ∧ i < 2 ^ 63) :
    ∃ v : Int64, (PyShape.int i : PyShape V).extractI64 = .ok v ∧ v.toInt = i := by
  refine ⟨Int64.ofInt i, ?_, Int64.toInt_ofInt_of_le (by omega) (by omega)⟩
  unfold PyShape.extractI64 PyShape.index
  rw [ok_bind, if_pos h]

/-- Extracting a `u32` in range. -/
theorem extractU32_int (h : 0 ≤ i ∧ i < 2 ^ 32) :
    ∃ v : UInt32, (PyShape.int i : PyShape V).extractU32 = .ok v ∧ (v.toNat : Int) = i := by
  refine ⟨UInt32.ofNat i.toNat, ?_, ?_⟩
  · unfold PyShape.extractU32 PyShape.index
    rw [ok_bind, if_pos h]
  · rw [UInt32.toNat_ofNat']
    omega

/-- Extracting a `u64` in range. -/
theorem extractU64_int (h : 0 ≤ i ∧ i < 2 ^ 64) :
    ∃ v : UInt64, (PyShape.int i : PyShape V).extractU64 = .ok v ∧ (v.toNat : Int) = i := by
  refine ⟨UInt64.ofNat i.toNat, ?_, ?_⟩
  · unfold PyShape.extractU64 PyShape.index
    rw [ok_bind, if_pos h]
  · rw [UInt64.toNat_ofNat']
    omega

end Extract

/-- Valid UTF-8 decodes to the string it came from. -/
theorem fromUtf8_toUTF8 (s : String) : fromUtf8 s.toUTF8.data.toList = some s := by
  unfold fromUtf8 String.fromUTF8?
  rw [Array.toArray_toList]
  exact dif_pos s.isValidUTF8

/-! ## The round trip -/

/-- A scalar value survives encoding and decoding, and is the default when its payload is. -/
def ScalarType.Survives (scalar : ScalarType) (value : PyVal) : Prop :=
  ∃ payload, scalarPayload scalar value.shape = .ok payload ∧
    scalarOfPayload scalar payload = .ok value ∧
    (payload.isDefault = true → value = scalarDefault scalar)

/-- **An integer survives** when its native type does: `extract` takes it to a native integer, `wire`
is the payload of that, and `toInt` the integer it stands for. -/
theorem ScalarType.survives_int {scalar : ScalarType} {W : Type}
    {extract : PyShape PyVal → PyResult W} {wire : W → Payload} {toInt : W → Int} {i : Int}
    (hencode : ∀ value, scalarPayload scalar value = extract value >>= fun v => .ok (wire v))
    (hextract : ∃ v, extract (.int i) = .ok v ∧ toInt v = i)
    (hdecode : ∀ v, scalarOfPayload scalar (wire v) = .ok (.int (toInt v)))
    (hzero : ∀ v, (wire v).isDefault = true → PyVal.int (toInt v) = scalarDefault scalar) :
    scalar.Survives (.int i) := by
  obtain ⟨v, hv, rfl⟩ := hextract
  refine ⟨wire v, ?_, hdecode v, hzero v⟩
  show scalarPayload scalar (.int (toInt v)) = _
  rw [hencode, hv, ok_bind]

/-- **A value of the range survives encoding and decoding**, and is the type default when its payload
is the default one. -/
theorem ScalarType.Holds.roundTrip {scalar : ScalarType} {value : PyVal}
    (h : scalar.Holds value) : scalar.Survives value := by
  -- a payload is the default only for zero, whatever the width and the sign
  cases scalar with
  | int32 =>
      obtain ⟨i, rfl, hrange⟩ := h
      refine survives_int (fun _ => rfl) (extractI32_int hrange) (fun v => ?_) (fun v hd => ?_)
      · simp only [scalarOfPayload, toInt32_signExtend]
      · simp only [Payload.isDefault, toUInt64_eq_zero, toInt64_eq_zero, decide_eq_true_eq] at hd
        rw [hd]
        rfl
  | int64 =>
      obtain ⟨i, rfl, hrange⟩ := h
      refine survives_int (fun _ => rfl) (extractI64_int hrange) (fun v => ?_) (fun v hd => ?_)
      · simp only [scalarOfPayload, Int64.toInt64_toUInt64]
      · simp only [Payload.isDefault, toUInt64_eq_zero, decide_eq_true_eq] at hd
        rw [hd]
        rfl
  | uint32 =>
      obtain ⟨i, rfl, hrange⟩ := h
      refine survives_int (fun _ => rfl) (extractU32_int hrange) (fun v => ?_) (fun v hd => ?_)
      · simp only [scalarOfPayload, UInt32.toUInt32_toUInt64]
      · simp only [Payload.isDefault, zeroExtend_eq_zero, decide_eq_true_eq] at hd
        rw [hd]
        rfl
  | uint64 =>
      obtain ⟨i, rfl, hrange⟩ := h
      refine survives_int (fun _ => rfl) (extractU64_int hrange) (fun v => rfl) (fun v hd => ?_)
      simp only [Payload.isDefault, decide_eq_true_eq] at hd
      rw [hd]
      rfl
  | sint32 =>
      obtain ⟨i, rfl, hrange⟩ := h
      refine survives_int (fun _ => rfl) (extractI32_int hrange) (fun v => ?_) (fun v hd => ?_)
      · simp only [scalarOfPayload, UInt32.toUInt32_toUInt64, zigzagDecode32_zigzagEncode32]
      · simp only [Payload.isDefault, zeroExtend_eq_zero, zigzagEncode32_eq_zero,
          decide_eq_true_eq] at hd
        rw [hd]
        rfl
  | sint64 =>
      obtain ⟨i, rfl, hrange⟩ := h
      refine survives_int (fun _ => rfl) (extractI64_int hrange) (fun v => ?_) (fun v hd => ?_)
      · simp only [scalarOfPayload, zigzagDecode64_zigzagEncode64]
      · simp only [Payload.isDefault, zigzagEncode64_eq_zero, decide_eq_true_eq] at hd
        rw [hd]
        rfl
  | fixed32 =>
      obtain ⟨i, rfl, hrange⟩ := h
      refine survives_int (fun _ => rfl) (extractU32_int hrange) (fun v => rfl) (fun v hd => ?_)
      simp only [Payload.isDefault, decide_eq_true_eq] at hd
      rw [hd]
      rfl
  | sfixed32 =>
      obtain ⟨i, rfl, hrange⟩ := h
      refine survives_int (fun _ => rfl) (extractI32_int hrange) (fun v => rfl) (fun v hd => ?_)
      simp only [Payload.isDefault, toUInt32_eq_zero, decide_eq_true_eq] at hd
      rw [hd]
      rfl
  | fixed64 =>
      obtain ⟨i, rfl, hrange⟩ := h
      refine survives_int (fun _ => rfl) (extractU64_int hrange) (fun v => rfl) (fun v hd => ?_)
      simp only [Payload.isDefault, decide_eq_true_eq] at hd
      rw [hd]
      rfl
  | sfixed64 =>
      obtain ⟨i, rfl, hrange⟩ := h
      refine survives_int (fun _ => rfl) (extractI64_int hrange) (fun v => rfl) (fun v hd => ?_)
      simp only [Payload.isDefault, toUInt64_eq_zero, decide_eq_true_eq] at hd
      rw [hd]
      rfl
  | bool =>
      obtain ⟨b, rfl⟩ := h
      refine ⟨.varint (if b then 1 else 0), rfl, ?_, fun hd => ?_⟩
      · cases b <;> rfl
      · cases b with
        | false => rfl
        | true => exact absurd hd (by decide)
  | float =>
      obtain ⟨bits, rfl⟩ := h
      refine ⟨.i32 (FloatBits.quiet bits), ?_, ?_, fun hd => ?_⟩
      · simp only [PyVal.shape, scalarPayload, PyShape.extractF32, PyShape.extractF64, ok_bind,
          FloatBits.narrow_widen]
      · simp only [scalarOfPayload, FloatBits.widen_quiet]
      · simp only [Payload.isDefault, FloatBits.quiet_eq_zero, decide_eq_true_eq] at hd
        rw [hd, FloatBits.widen_zero]
        rfl
  | double =>
      obtain ⟨bits, rfl⟩ := h
      refine ⟨.i64 bits, rfl, rfl, fun hd => ?_⟩
      simp only [Payload.isDefault, decide_eq_true_eq] at hd
      rw [hd]
      rfl
  | string =>
      obtain ⟨s, rfl⟩ := h
      refine ⟨.len s.toUTF8.data.toList, rfl, ?_, fun hd => ?_⟩
      · simp only [scalarOfPayload, decodeStr, fromUtf8_toUTF8]
      · have hnil : s.toUTF8.data.toList = [] := by
          simpa [Payload.isDefault] using hd
        have hs := fromUtf8_toUTF8 s
        rw [hnil] at hs
        have hempty : fromUtf8 [] = some "" := by decide
        rw [hempty] at hs
        cases hs
        rfl
  | bytes =>
      obtain ⟨b, rfl⟩ := h
      refine ⟨.len b, rfl, rfl, fun hd => ?_⟩
      have hnil : b = [] := by simpa [Payload.isDefault] using hd
      rw [hnil]
      rfl

/-- **Every scalar payload decodes into the range of its type.** -/
theorem holds_of_scalarOfPayload {scalar : ScalarType} {payload : Payload} {value : PyVal}
    (h : scalarOfPayload scalar payload = .ok value) : scalar.Holds value := by
  unfold scalarOfPayload at h
  split at h
  case h_1 raw => cases h; exact ⟨_, rfl, Int32.le_toInt _, Int32.toInt_lt _⟩
  case h_2 raw => cases h; exact ⟨_, rfl, Int64.le_toInt _, Int64.toInt_lt _⟩
  case h_3 raw => cases h; exact ⟨_, rfl, by omega, by have := raw.toUInt32.toNat_lt; omega⟩
  case h_4 raw => cases h; exact ⟨_, rfl, by omega, by have := raw.toNat_lt; omega⟩
  case h_5 raw => cases h; exact ⟨_, rfl, Int32.le_toInt _, Int32.toInt_lt _⟩
  case h_6 raw => cases h; exact ⟨_, rfl, Int64.le_toInt _, Int64.toInt_lt _⟩
  case h_7 raw => cases h; exact ⟨_, rfl⟩
  case h_8 raw => cases h; exact ⟨_, rfl, by omega, by have := raw.toNat_lt; omega⟩
  case h_9 raw => cases h; exact ⟨_, rfl, Int32.le_toInt _, Int32.toInt_lt _⟩
  case h_10 raw => cases h; exact ⟨_, rfl⟩
  case h_11 raw => cases h; exact ⟨_, rfl, by omega, by have := raw.toNat_lt; omega⟩
  case h_12 raw => cases h; exact ⟨_, rfl, Int64.le_toInt _, Int64.toInt_lt _⟩
  case h_13 raw => cases h; exact ⟨_, rfl⟩
  case h_14 data =>
      unfold decodeStr at h
      split at h
      · cases h
        exact ⟨_, rfl⟩
      · cases h
  case h_15 data => cases h; exact ⟨_, rfl⟩
  case h_16 => cases h

/-- The default of a scalar type is in its range. -/
theorem ScalarType.holds_default (scalar : ScalarType) : scalar.Holds (scalarDefault scalar) := by
  cases scalar with
  | int32 | sint32 | sfixed32 => exact ⟨0, rfl, by decide, by decide⟩
  | int64 | sint64 | sfixed64 => exact ⟨0, rfl, by decide, by decide⟩
  | uint32 | fixed32 => exact ⟨0, rfl, by decide, by decide⟩
  | uint64 | fixed64 => exact ⟨0, rfl, by decide, by decide⟩
  | bool => exact ⟨false, rfl⟩
  | float => exact ⟨0, by rw [FloatBits.widen_zero]; rfl⟩
  | double => exact ⟨0, rfl⟩
  | string => exact ⟨"", rfl⟩
  | bytes => exact ⟨[], rfl⟩

/-- No scalar value is None. -/
theorem ScalarType.Holds.ne_pyNone {scalar : ScalarType} {value : PyVal} (h : scalar.Holds value) :
    value ≠ .pyNone := by
  rintro rfl
  cases scalar with
  | bool | float | double | string | bytes => obtain ⟨_, h⟩ := h; cases h
  | _ => obtain ⟨_, h, -⟩ := h; cases h

end FastProto
