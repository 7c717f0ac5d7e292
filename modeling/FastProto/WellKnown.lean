import FastProto.Object
import FastProto.Record

/-! # Timestamps and durations (`src/wellknown/mod.rs`)

`google.protobuf.Timestamp` surfaces as `datetime` and `google.protobuf.Duration` as `timedelta`.
The conversions go through whole seconds and nanoseconds with exact integer arithmetic; the `i128`
totals stay far inside their range and are integers here. -/

namespace FastProto

open Lib Lib.Cursor

/-- The least seconds of a Timestamp, 0001-01-01T00:00:00Z. -/
def tsMinSeconds : Int64 := -62135596800

/-- The largest seconds of a Timestamp, 9999-12-31T23:59:59Z. -/
def tsMaxSeconds : Int64 := 253402300799

/-- The largest magnitude of a Duration's seconds. -/
def durationMaxSeconds : Int64 := 315576000000

/-- The largest magnitude of nanoseconds. -/
def maxNanos : Int32 := 999999999

/-- Nanoseconds in a second. -/
def nanosPerSecond : Int := 1000000000

/-- The error for parts outside of their range. -/
def outOfRange (what : String) : PyErr := .valueError (what ++ " out of range")

/-- Total nanoseconds represented by a `timedelta` (exact). -/
def timedeltaTotalNanos (delta : TimeDelta) : Int :=
  (delta.days * 86400 + delta.seconds) * nanosPerSecond + delta.microseconds * 1000

/-- `timedelta(seconds=secs, microseconds=nanos / 1000)`. -/
def timedeltaFrom (secs : Int64) (nanos : Int32) : PyResult TimeDelta :=
  TimeDelta.ofMicros (secs.toInt * 10 ^ 6 + (nanos / 1000).toInt)

/-- `replace(tzinfo=utc)` on a naive `datetime`. -/
def DateTime.toAware (d : DateTime) : DateTime :=
  match d.offset with
  | some _ => d
  | none =>
      { d with
        offset := some 0
        offset_bounds := by
          intro o ho
          cases ho
          decide }

/-- The difference of an aware `datetime` and the epoch: the distance of the two instants. -/
def DateTime.sinceEpoch (d : DateTime) : TimeDelta where
  micros := d.micros - d.offset.getD 0
  min_le := by
    have h := d.min_le
    cases hoff : d.offset with
    | none => simp only [Option.getD_none, dayMicros, minDatetimeMicros] at h ⊢; omega
    | some o =>
        have ho := (d.offset_bounds o hoff).2
        simp only [Option.getD_some, dayMicros, minDatetimeMicros] at h ho ⊢
        omega
  lt_max := by
    have h := d.le_max
    cases hoff : d.offset with
    | none => simp only [Option.getD_none, dayMicros, maxDatetimeMicros] at h ⊢; omega
    | some o =>
        have ho := (d.offset_bounds o hoff).1
        simp only [Option.getD_some, dayMicros, maxDatetimeMicros] at h ho ⊢
        omega

/-- `epoch + delta`, in UTC: `OverflowError` outside of the years 1 to 9999. -/
def epochAdd (delta : TimeDelta) : PyResult DateTime :=
  if h : minDatetimeMicros ≤ delta.micros ∧ delta.micros ≤ maxDatetimeMicros then
    .ok ⟨delta.micros, some 0, h.1, h.2, by intro o ho; cases ho; decide⟩
  else .error (.overflowError "date value out of range")

/-- `datetime` -> Timestamp `(seconds, nanos)`; naive datetimes are read as UTC. -/
def datetimeToParts {V : Type} : PyShape V → PyResult (Int64 × Int32)
  | .datetime d =>
      let total := timedeltaTotalNanos d.toAware.sinceEpoch
      .ok (Int64.ofInt (total / nanosPerSecond), Int32.ofInt (total % nanosPerSecond))
  | _ => .error (.attributeError "tzinfo")

/-- Timestamp `(seconds, nanos)` -> aware-UTC `datetime` (sub-µs truncated). -/
def partsToDatetime (secs : Int64) (nanos : Int32) : PyResult DateTime :=
  if ¬ (tsMinSeconds ≤ secs ∧ secs ≤ tsMaxSeconds) ∨ ¬ (0 ≤ nanos ∧ nanos ≤ maxNanos) then
    .error (outOfRange "timestamp")
  else do
    let delta ← timedeltaFrom secs nanos
    epochAdd delta

/-- `timedelta` -> Duration `(seconds, nanos)`, with the same sign. -/
def timedeltaToParts {V : Type} : PyShape V → PyResult (Int64 × Int32)
  | .timedelta d =>
      let total := timedeltaTotalNanos d
      let secs := Int64.ofInt (total.tdiv nanosPerSecond)
      let nanos := Int32.ofInt (total.tmod nanosPerSecond)
      if secs.abs > durationMaxSeconds then .error (outOfRange "duration") else .ok (secs, nanos)
  | _ => .error (.attributeError "days")

/-- Duration `(seconds, nanos)` -> `timedelta` (sub-µs truncated). -/
def partsToTimedelta (secs : Int64) (nanos : Int32) : PyResult TimeDelta :=
  if secs.abs > durationMaxSeconds ∨ nanos.abs > maxNanos then .error (outOfRange "duration")
  else timedeltaFrom secs nanos

/-! ## The submessage -/

/-- Append `(seconds, nanos)` as the fields of a Timestamp/Duration message. -/
def encodeParts (buf : Bytes) (secs : Int64) (nanos : Int32) : Bytes :=
  let buf := if secs ≠ 0 then writeVarint (writeTag buf 1 .varint) secs.toUInt64 else buf
  if nanos ≠ 0 then writeVarint (writeTag buf 2 .varint) nanos.toInt64.toUInt64 else buf

/-- The loop body of `decode_parts`. -/
def decodePartsBody (parts : Int64 × Int32) : ReadM (Int64 × Int32) := do
  let (number, wire) ← Reader.readTag
  match number.toNat, wire with
  | 1, .varint => do
      let v ← Reader.readVarint
      pure (v.toInt64, parts.2)
  | 2, .varint => do
      let v ← Reader.readVarint
      pure (parts.1, v.toInt64.toInt32)
  | _, w => do
      Reader.skip w
      pure parts

/-- Decode Timestamp/Duration message bytes into `(seconds, nanos)`. -/
def decodeParts (data : Bytes) : Except WireError (Int64 × Int32) :=
  drainAll decodePartsBody (0, 0) (Reader.new data)

/-- The records `encodeParts` emits. -/
def partsRecords (secs : Int64) (nanos : Int32) : List Record :=
  (if secs ≠ 0 then [⟨1, .varint secs.toUInt64⟩] else [])
    ++ (if nanos ≠ 0 then [⟨2, .varint nanos.toInt64.toUInt64⟩] else [])

/-- `encode_parts` appends its records. -/
theorem encodeParts_eq (buf : Bytes) (secs : Int64) (nanos : Int32) :
    encodeParts buf secs nanos = buf ++ recordsBytes (partsRecords secs nanos) := by
  unfold encodeParts partsRecords
  split <;> split <;>
    simp [writeVarint_eq, writeTag_eq, Record.bytes, Payload.wire, Payload.bytes]

/-- The step of `decode_parts` on one record. -/
def decodePartsStep (parts : Int64 × Int32) (rec : Record) : Except WireError (Int64 × Int32) :=
  match rec.number.toNat, rec.payload with
  | 1, .varint v => .ok (v.toInt64, parts.2)
  | 2, .varint v => .ok (parts.1, v.toInt64.toInt32)
  | _, _ => .ok parts

/-- The loop of `decode_parts` works record by record. -/
theorem decodeParts_body : Body Reader.readRecord id decodePartsStep decodePartsBody := by
  refine body_of_branches (fun _ => by rw [mapErr_id]; rfl) fun parts number wire => ?_
  unfold decodePartsStep
  dsimp only
  generalize number.toNat = k
  cases wire with
  | varint => rw [payload_varint]; split <;> simp_all [Reader.skip]
  | i64 => rw [payload_i64]; split <;> simp_all [Reader.skip]
  | len => rw [payload_len]; split <;> simp_all [Reader.skip]
  | i32 => rw [payload_i32]; split <;> simp_all [Reader.skip]

/-- The records of a Timestamp/Duration payload can be read back. -/
theorem readable_partsRecords (secs : Int64) (nanos : Int32) :
    ∀ rec ∈ partsRecords secs nanos, rec.Readable := by
  intro rec hrec
  rcases List.mem_append.mp hrec with h | h
  · split at h
    · rw [List.mem_singleton] at h
      subst h
      exact ⟨(by decide : ValidNumber 1), trivial⟩
    · cases h
  · split at h
    · rw [List.mem_singleton] at h
      subst h
      exact ⟨(by decide : ValidNumber 2), trivial⟩
    · cases h

/-- **`decode_parts` undoes `encode_parts`.** -/
theorem decodeParts_partsRecords (secs : Int64) (nanos : Int32) :
    decodeParts (recordsBytes (partsRecords secs nanos)) = .ok (secs, nanos) := by
  have hsplit := split_recordsBytes (readable_partsRecords secs nanos)
  rw [decodeParts, Reader.new, drainAll_split decodeParts_body hsplit]
  unfold partsRecords
  by_cases hs : secs = 0
  · by_cases hn : nanos = 0
    · simp [hs, hn]
    · simp [hs, hn, decodePartsStep]
  · by_cases hn : nanos = 0
    · simp [hs, hn, decodePartsStep]
    · simp [hs, hn, decodePartsStep]

/-! ## Conversions and their inverses -/

/-- A `timedelta` has a thousand nanoseconds per microsecond. -/
theorem timedeltaTotalNanos_eq (d : TimeDelta) : timedeltaTotalNanos d = d.micros * 1000 := by
  unfold timedeltaTotalNanos TimeDelta.days TimeDelta.seconds TimeDelta.microseconds dayMicros
    nanosPerSecond
  omega

/-- **The seconds and nanoseconds of a `datetime`**: whole seconds rounded down, and the rest. -/
theorem datetimeToParts_eq {V : Type} (d : DateTime) :
    ∃ secs nanos, datetimeToParts (.datetime d : PyShape V) = .ok (secs, nanos) ∧
      secs.toInt = (d.micros - d.offset.getD 0) / 10 ^ 6 ∧
      nanos.toInt = (d.micros - d.offset.getD 0) % 10 ^ 6 * 1000 := by
  have hoff : d.toAware.sinceEpoch.micros = d.micros - d.offset.getD 0 := by
    unfold DateTime.sinceEpoch DateTime.toAware
    cases h : d.offset with
    | none => simp
    | some o => simp [h]
  have hmin := d.toAware.sinceEpoch.min_le
  have hmax := d.toAware.sinceEpoch.lt_max
  rw [hoff] at hmin hmax
  refine ⟨_, _, rfl, ?_, ?_⟩
  · rw [timedeltaTotalNanos_eq, hoff, Int64.toInt_ofInt_of_le]
    all_goals unfold nanosPerSecond; unfold dayMicros at hmin hmax; omega
  · rw [timedeltaTotalNanos_eq, hoff, Int32.toInt_ofInt_of_le]
    all_goals unfold nanosPerSecond; omega

/-- A bound on 64-bit integers, on their values. -/
theorem timestamp_bounds {secs : Int64} {nanos : Int32} :
    ((tsMinSeconds ≤ secs ∧ secs ≤ tsMaxSeconds) ∧ 0 ≤ nanos ∧ nanos ≤ maxNanos) ↔
      (-62135596800 ≤ secs.toInt ∧ secs.toInt ≤ 253402300799) ∧
        0 ≤ nanos.toInt ∧ nanos.toInt ≤ 999999999 := by
  rw [Int64.le_iff_toInt_le, Int64.le_iff_toInt_le, Int32.le_iff_toInt_le, Int32.le_iff_toInt_le]
  rfl

/-- The truncated microseconds of nonnegative nanoseconds. -/
theorem toInt_div_thousand (nanos : Int32) :
    (nanos / 1000).toInt = nanos.toInt.tdiv 1000 :=
  Int32.toInt_div_of_ne_right nanos 1000 (by decide)

/-- **`parts_to_datetime` succeeds exactly on the Timestamp range**, with the instant truncated to
microseconds, in UTC. -/
theorem partsToDatetime_eq_ok {secs : Int64} {nanos : Int32} {d : DateTime} :
    partsToDatetime secs nanos = .ok d ↔
      ((-62135596800 ≤ secs.toInt ∧ secs.toInt ≤ 253402300799) ∧
        0 ≤ nanos.toInt ∧ nanos.toInt ≤ 999999999) ∧
        d.offset = some 0 ∧ d.micros = secs.toInt * 10 ^ 6 + nanos.toInt / 1000 := by
  rw [← timestamp_bounds]
  unfold partsToDatetime
  by_cases hrange : (tsMinSeconds ≤ secs ∧ secs ≤ tsMaxSeconds) ∧ 0 ≤ nanos ∧ nanos ≤ maxNanos
  · rw [if_neg (by tauto)]
    have hb := timestamp_bounds.mp hrange
    have hmicros : secs.toInt * 10 ^ 6 + (nanos / 1000).toInt
        = secs.toInt * 10 ^ 6 + nanos.toInt / 1000 := by
      rw [toInt_div_thousand, Int.tdiv_eq_ediv_of_nonneg hb.2.1]
    have hdelta : -999999999 * dayMicros ≤ secs.toInt * 10 ^ 6 + (nanos / 1000).toInt ∧
        secs.toInt * 10 ^ 6 + (nanos / 1000).toInt < 1000000000 * dayMicros := by
      rw [hmicros]
      unfold dayMicros
      omega
    have hdate : minDatetimeMicros ≤ secs.toInt * 10 ^ 6 + (nanos / 1000).toInt ∧
        secs.toInt * 10 ^ 6 + (nanos / 1000).toInt ≤ maxDatetimeMicros := by
      rw [hmicros]
      unfold minDatetimeMicros maxDatetimeMicros
      omega
    rw [timedeltaFrom, TimeDelta.ofMicros, dif_pos hdelta, ok_bind, epochAdd, dif_pos hdate]
    constructor
    · intro h
      cases h
      exact ⟨hrange, rfl, hmicros⟩
    · rintro ⟨-, hoff, hm⟩
      exact congrArg Except.ok (DateTime.ext (by rw [hm, ← hmicros]) hoff.symm)
  · rw [if_pos (by tauto)]
    constructor
    · intro h
      cases h
    · rintro ⟨h, -⟩
      exact absurd h hrange

/-- **A UTC `datetime` survives the conversion to parts and back.** -/
theorem partsToDatetime_datetimeToParts {V : Type} {d : DateTime} (hutc : d.offset = some 0)
    {secs : Int64} {nanos : Int32}
    (h : datetimeToParts (.datetime d : PyShape V) = .ok (secs, nanos)) :
    partsToDatetime secs nanos = .ok d := by
  obtain ⟨secs', nanos', h', hsecs, hnanos⟩ := datetimeToParts_eq (V := V) d
  rw [h] at h'
  cases h'
  rw [hutc, Option.getD_some, Int.sub_zero] at hsecs hnanos
  have hmin := d.min_le
  have hmax := d.le_max
  unfold minDatetimeMicros at hmin
  unfold maxDatetimeMicros at hmax
  rw [partsToDatetime_eq_ok, hsecs, hnanos]
  refine ⟨by omega, hutc, by omega⟩

/-- The absolute values in the Duration range, on values. -/
theorem duration_bounds {secs : Int64} {nanos : Int32} (hs : secs.toInt ≠ -2 ^ 63)
    (hn : nanos.toInt ≠ -2 ^ 31) :
    (secs.abs > durationMaxSeconds ∨ nanos.abs > maxNanos) ↔
      315576000000 < secs.toInt.natAbs ∨ 999999999 < nanos.toInt.natAbs := by
  have habs : secs.abs.toInt = secs.toInt.natAbs :=
    BitVec.toInt_abs_eq_natAbs_of_ne_intMin fun h => hs (by
      show secs.toBitVec.toInt = _
      rw [h]
      rfl)
  have habs' : nanos.abs.toInt = nanos.toInt.natAbs :=
    BitVec.toInt_abs_eq_natAbs_of_ne_intMin fun h => hn (by
      show nanos.toBitVec.toInt = _
      rw [h]
      rfl)
  rw [gt_iff_lt, gt_iff_lt, Int64.lt_iff_toInt_lt, Int32.lt_iff_toInt_lt, habs, habs',
    show durationMaxSeconds.toInt = 315576000000 from rfl, show maxNanos.toInt = 999999999 from rfl]
  omega

/-- Truncated division by a million: quotient and remainder add up, and the remainder has the sign
of the dividend. -/
theorem tdiv_tmod_million (a : Int) :
    10 ^ 6 * a.tdiv (10 ^ 6) + a.tmod (10 ^ 6) = a ∧ -10 ^ 6 < a.tmod (10 ^ 6) ∧
      a.tmod (10 ^ 6) < 10 ^ 6 ∧ (0 ≤ a → 0 ≤ a.tmod (10 ^ 6)) ∧
      (a ≤ 0 → a.tmod (10 ^ 6) ≤ 0) := by
  have hneg : (-a).tmod (10 ^ 6) = -a.tmod (10 ^ 6) := Int.neg_tmod a (10 ^ 6)
  refine ⟨Int.mul_tdiv_add_tmod a _, ?_, Int.tmod_lt_of_pos _ (by decide),
    fun h => Int.tmod_nonneg _ h, fun h => ?_⟩
  · have := Int.tmod_lt_of_pos (-a) (show (0 : Int) < 10 ^ 6 by decide)
    omega
  · have := Int.tmod_nonneg (10 ^ 6) (show 0 ≤ -a by omega)
    omega

/-- **`timedelta_to_parts` succeeds exactly on the Duration range**, with both parts truncated
toward zero. -/
theorem timedeltaToParts_eq_ok {V : Type} {d : TimeDelta} {secs : Int64} {nanos : Int32} :
    timedeltaToParts (.timedelta d : PyShape V) = .ok (secs, nanos) ↔
      d.micros.natAbs < 315576000001 * 10 ^ 6 ∧
        secs.toInt = d.micros.tdiv (10 ^ 6) ∧ nanos.toInt = d.micros.tmod (10 ^ 6) * 1000 := by
  have hmin := d.min_le
  have hmax := d.lt_max
  unfold dayMicros at hmin hmax
  obtain ⟨hsum, hlow, hhigh, hpos, hneg⟩ := tdiv_tmod_million d.micros
  -- whole microseconds: the quotient by a second is the same in nanoseconds
  have hdiv : (d.micros * 1000).tdiv nanosPerSecond = d.micros.tdiv (10 ^ 6) := by
    rw [show nanosPerSecond = 10 ^ 6 * 1000 from rfl, Int.mul_tdiv_mul_of_pos_left _ _ (by decide)]
  have hmod : (d.micros * 1000).tmod nanosPerSecond = d.micros.tmod (10 ^ 6) * 1000 := by
    have h₁ := Int.mul_tdiv_add_tmod (d.micros * 1000) nanosPerSecond
    have h₂ := Int.mul_tdiv_add_tmod d.micros (10 ^ 6)
    rw [hdiv] at h₁
    unfold nanosPerSecond at h₁ ⊢
    omega
  have hsecs : (Int64.ofInt (d.micros.tdiv (10 ^ 6))).toInt = d.micros.tdiv (10 ^ 6) :=
    Int64.toInt_ofInt_of_le (by omega) (by omega)
  have hnanos : (Int32.ofInt (d.micros.tmod (10 ^ 6) * 1000)).toInt
      = d.micros.tmod (10 ^ 6) * 1000 := Int32.toInt_ofInt_of_le (by omega) (by omega)
  unfold timedeltaToParts
  dsimp only
  rw [timedeltaTotalNanos_eq, hdiv, hmod]
  have hrange := @duration_bounds (Int64.ofInt (d.micros.tdiv (10 ^ 6))) 0
    (by rw [hsecs]; omega) (by decide)
  rw [hsecs] at hrange
  by_cases hover : (Int64.ofInt (d.micros.tdiv (10 ^ 6))).abs > durationMaxSeconds
  · rw [if_pos hover]
    have := hrange.mp (.inl hover)
    constructor
    · intro h
      cases h
    · rintro ⟨h, -⟩
      have hzero : (0 : Int32).toInt = 0 := rfl
      omega
  · rw [if_neg hover]
    -- a timedelta is far from the ends of `Int64`, so `abs` does not wrap
    have hin : ¬ 315576000000 < (d.micros.tdiv (10 ^ 6)).natAbs := fun h =>
      (hrange.mpr (.inl h)).elim hover (by decide)
    constructor
    · intro h
      cases h
      exact ⟨by omega, hsecs, hnanos⟩
    · rintro ⟨-, hs, hn⟩
      rw [← hsecs] at hs
      rw [← hnanos] at hn
      rw [Int64.toInt_inj.mp hs, Int32.toInt_inj.mp hn]

/-- The Durations in the range of the protocol. -/
def TimeDelta.InRange (d : TimeDelta) : Prop := d.micros.natAbs < 315576000001 * 10 ^ 6

/-- A Duration in range has parts. -/
theorem TimeDelta.InRange.parts {V : Type} {d : TimeDelta} (h : d.InRange) :
    ∃ secs nanos, timedeltaToParts (.timedelta d : PyShape V) = .ok (secs, nanos) := by
  have hmin := d.min_le
  have hmax := d.lt_max
  unfold dayMicros at hmin hmax
  unfold InRange at h
  obtain ⟨hsum, hlow, hhigh, -⟩ := tdiv_tmod_million d.micros
  refine ⟨Int64.ofInt (d.micros.tdiv (10 ^ 6)), Int32.ofInt (d.micros.tmod (10 ^ 6) * 1000), ?_⟩
  rw [timedeltaToParts_eq_ok, Int64.toInt_ofInt_of_le (by omega) (by omega),
    Int32.toInt_ofInt_of_le (by omega) (by omega)]
  exact ⟨h, rfl, rfl⟩

/-- **A `timedelta` the encoder accepts survives the conversion to parts and back.** -/
theorem partsToTimedelta_timedeltaToParts {V : Type} {d : TimeDelta} {secs : Int64}
    {nanos : Int32} (h : timedeltaToParts (.timedelta d : PyShape V) = .ok (secs, nanos)) :
    partsToTimedelta secs nanos = .ok d := by
  obtain ⟨hrange, hsecs, hnanos⟩ := timedeltaToParts_eq_ok.mp h
  obtain ⟨hsum, hlow, hhigh, hpos, hneg⟩ := tdiv_tmod_million d.micros
  have hzero : (0 : Int32).toInt = 0 := rfl
  unfold partsToTimedelta
  rw [if_neg]
  · have hmicros : secs.toInt * 10 ^ 6 + (nanos / 1000).toInt = d.micros := by
      rw [toInt_div_thousand, hsecs, hnanos, Int.mul_tdiv_cancel _ (by decide)]
      omega
    rw [timedeltaFrom, TimeDelta.ofMicros,
      dif_pos (by rw [hmicros]; exact ⟨d.min_le, d.lt_max⟩)]
    exact congrArg Except.ok (TimeDelta.ext hmicros)
  · rw [duration_bounds (by omega) (by omega)]
    omega

end FastProto
