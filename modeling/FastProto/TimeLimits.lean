import FastProto.Decode

/-! # Limits of timestamps and durations (`src/wellknown/mod.rs`)

Both sides of the codec check ranges on machine integers: the decoder on the raw parts, the encoder
on the parts it computes. `i64::abs` and `i32::abs` have no result on the least value, where a
release build wraps around and a debug build panics, so the conversions are stated here for both
builds; the release build is the one the codec is modelled with. -/

namespace FastProto

open Lib

/-! ## Absolute values in the two builds -/

/-- How the crate is compiled: arithmetic overflow wraps in a release build, panics in a debug one. -/
inductive Build where
  | release
  | debug
  deriving DecidableEq, Repr

/-- The panic of an overflowing `abs` in a debug build. -/
def negateOverflow : PyErr := .panicked "attempt to negate with overflow"

/-- `i64::abs`. -/
def absI64 (build : Build) (v : Int64) : PyResult Int64 :=
  if build = .debug ∧ v = Int64.minValue then .error negateOverflow else .ok v.abs

/-- `i32::abs`. -/
def absI32 (build : Build) (v : Int32) : PyResult Int32 :=
  if build = .debug ∧ v = Int32.minValue then .error negateOverflow else .ok v.abs

/-- `parts_to_timedelta` as a build computes it; `||` looks at the nanoseconds only when the seconds
are in range. -/
def partsToTimedeltaIn (build : Build) (secs : Int64) (nanos : Int32) : PyResult TimeDelta := do
  let magnitude ← absI64 build secs
  if magnitude > durationMaxSeconds then .error (outOfRange "duration")
  else do
    let magnitude ← absI32 build nanos
    if magnitude > maxNanos then .error (outOfRange "duration") else timedeltaFrom secs nanos

/-- `timedelta_to_parts` as a build computes it. -/
def timedeltaToPartsIn (build : Build) (d : TimeDelta) : PyResult (Int64 × Int32) := do
  let total := timedeltaTotalNanos d
  let secs := Int64.ofInt (total.tdiv nanosPerSecond)
  let nanos := Int32.ofInt (total.tmod nanosPerSecond)
  let magnitude ← absI64 build secs
  if magnitude > durationMaxSeconds then .error (outOfRange "duration") else .ok (secs, nanos)

/-- Away from the least value no build overflows. -/
theorem absI64_of_ne (build : Build) {v : Int64} (h : v ≠ Int64.minValue) :
    absI64 build v = .ok v.abs :=
  if_neg fun hmin => h hmin.2

/-- Away from the least value no build overflows. -/
theorem absI32_of_ne (build : Build) {v : Int32} (h : v ≠ Int32.minValue) :
    absI32 build v = .ok v.abs :=
  if_neg fun hmin => h hmin.2

/-- A release build never panics. -/
theorem absI64_release (v : Int64) : absI64 .release v = .ok v.abs :=
  if_neg fun h => nomatch h.1

/-- A release build never panics. -/
theorem absI32_release (v : Int32) : absI32 .release v = .ok v.abs :=
  if_neg fun h => nomatch h.1

/-- Where neither absolute value overflows, the conversion is the one of the codec. -/
theorem partsToTimedeltaIn_of_ok {build : Build} {secs : Int64} {nanos : Int32}
    (hs : absI64 build secs = .ok secs.abs) (hn : absI32 build nanos = .ok nanos.abs) :
    partsToTimedeltaIn build secs nanos = partsToTimedelta secs nanos := by
  unfold partsToTimedeltaIn partsToTimedelta
  rw [hs, hn]
  simp only [ok_bind]
  by_cases hsecs : secs.abs > durationMaxSeconds
  · rw [if_pos hsecs, if_pos (.inl hsecs)]
  · rw [if_neg hsecs]
    by_cases hnanos : nanos.abs > maxNanos
    · rw [if_pos hnanos, if_pos (.inr hnanos)]
    · rw [if_neg hnanos, if_neg (not_or.mpr ⟨hsecs, hnanos⟩)]

/-- **The codec decodes durations as a release build does.** -/
theorem partsToTimedeltaIn_release (secs : Int64) (nanos : Int32) :
    partsToTimedeltaIn .release secs nanos = partsToTimedelta secs nanos :=
  partsToTimedeltaIn_of_ok (absI64_release secs) (absI32_release nanos)

/-- Seconds out of range are refused before the nanoseconds are looked at. -/
theorem partsToTimedeltaIn_of_gt {build : Build} {secs : Int64} (nanos : Int32)
    (hs : absI64 build secs = .ok secs.abs) (h : secs.abs > durationMaxSeconds) :
    partsToTimedeltaIn build secs nanos = .error (outOfRange "duration") := by
  unfold partsToTimedeltaIn
  rw [hs, ok_bind, if_pos h]

/-! ## Durations -/

/-- The parts of a Duration the protocol allows. -/
def DurationRange (secs : Int64) (nanos : Int32) : Prop :=
  (-315576000000 ≤ secs.toInt ∧ secs.toInt ≤ 315576000000) ∧
    -999999999 ≤ nanos.toInt ∧ nanos.toInt ≤ 999999999

instance (secs : Int64) (nanos : Int32) : Decidable (DurationRange secs nanos) :=
  inferInstanceAs (Decidable ((_ ∧ _) ∧ _ ∧ _))

/-- The check on the seconds alone. -/
theorem secs_abs_gt {secs : Int64} (h : secs ≠ Int64.minValue) :
    secs.abs > durationMaxSeconds ↔ 315576000000 < secs.toInt.natAbs := by
  have hmin : secs.toInt ≠ -2 ^ 63 := fun heq => h (Int64.toInt_inj.mp (by rw [heq]; rfl))
  have hbounds := @duration_bounds secs 0 hmin (by decide)
  have hzero : ¬ (0 : Int32).abs > maxNanos := by decide
  have hnat : ¬ 999999999 < (0 : Int32).toInt.natAbs := by decide
  tauto

/-- The check on the nanoseconds alone. -/
theorem nanos_abs_gt {nanos : Int32} (h : nanos ≠ Int32.minValue) :
    nanos.abs > maxNanos ↔ 999999999 < nanos.toInt.natAbs := by
  have hmin : nanos.toInt ≠ -2 ^ 31 := fun heq => h (Int32.toInt_inj.mp (by rw [heq]; rfl))
  have hbounds := @duration_bounds 0 nanos (by decide) hmin
  have hzero : ¬ (0 : Int64).abs > durationMaxSeconds := by decide
  have hnat : ¬ 315576000000 < (0 : Int64).toInt.natAbs := by decide
  tauto

/-- The parts of the protocol are far from the least values. -/
theorem DurationRange.ne_min {secs : Int64} {nanos : Int32} (h : DurationRange secs nanos) :
    secs ≠ Int64.minValue ∧ nanos ≠ Int32.minValue := by
  constructor
  · rintro rfl
    exact absurd h.1.1 (by decide)
  · rintro rfl
    exact absurd h.2.1 (by decide)

/-- The microseconds of nanoseconds in range, truncated toward zero. -/
theorem DurationRange.micros {secs : Int64} {nanos : Int32} (h : DurationRange secs nanos) :
    -999999 ≤ nanos.toInt.tdiv 1000 ∧ nanos.toInt.tdiv 1000 ≤ 999999 := by
  obtain ⟨-, hnanos⟩ := h
  rcases Int.le_total 0 nanos.toInt with hpos | hneg
  · rw [Int.tdiv_eq_ediv_of_nonneg hpos]
    omega
  · have hflip : (-nanos.toInt).tdiv 1000 = -nanos.toInt.tdiv 1000 := Int.neg_tdiv _ _
    rw [Int.tdiv_eq_ediv_of_nonneg (by omega)] at hflip
    omega

/-- **In range, `parts_to_timedelta` succeeds in every build**, truncating to microseconds. -/
theorem DurationRange.partsToTimedeltaIn {secs : Int64} {nanos : Int32}
    (h : DurationRange secs nanos) (build : Build) :
    ∃ d, FastProto.partsToTimedeltaIn build secs nanos = .ok d ∧
      d.micros = secs.toInt * 10 ^ 6 + nanos.toInt.tdiv 1000 := by
  obtain ⟨hs, hn⟩ := h.ne_min
  have hmicros := h.micros
  obtain ⟨hsecs, hnanos⟩ := h
  rw [partsToTimedeltaIn_of_ok (absI64_of_ne build hs) (absI32_of_ne build hn)]
  have hnot : ¬ (secs.abs > durationMaxSeconds ∨ nanos.abs > maxNanos) := by
    rw [secs_abs_gt hs, nanos_abs_gt hn]
    omega
  have hdelta : -999999999 * dayMicros ≤ secs.toInt * 10 ^ 6 + (nanos / 1000).toInt ∧
      secs.toInt * 10 ^ 6 + (nanos / 1000).toInt < 1000000000 * dayMicros := by
    rw [toInt_div_thousand]
    unfold dayMicros
    omega
  refine ⟨⟨_, hdelta.1, hdelta.2⟩, ?_, congrArg (_ + ·) (toInt_div_thousand nanos)⟩
  rw [partsToTimedelta, if_neg hnot, timedeltaFrom, TimeDelta.ofMicros, dif_pos hdelta]

/-- No `timedelta` has parts near the least value, so no build overflows on it. -/
theorem timedeltaToPartsIn_eq {V : Type} (build : Build) (d : TimeDelta) :
    timedeltaToPartsIn build d = timedeltaToParts (.timedelta d : PyShape V) := by
  have hmin := d.min_le
  have hmax := d.lt_max
  unfold dayMicros at hmin hmax
  obtain ⟨hsum, hlow, hhigh, -⟩ := tdiv_tmod_million d.micros
  have hdiv : (timedeltaTotalNanos d).tdiv nanosPerSecond = d.micros.tdiv (10 ^ 6) := by
    rw [timedeltaTotalNanos_eq, show nanosPerSecond = 10 ^ 6 * 1000 from rfl,
      Int.mul_tdiv_mul_of_pos_left _ _ (by decide)]
  have hne : Int64.ofInt ((timedeltaTotalNanos d).tdiv nanosPerSecond) ≠ Int64.minValue := by
    intro heq
    have htoInt := congrArg Int64.toInt heq
    rw [hdiv, Int64.toInt_ofInt_of_le (by omega) (by omega),
      show Int64.minValue.toInt = -9223372036854775808 from rfl] at htoInt
    omega
  simp only [timedeltaToPartsIn, timedeltaToParts, absI64_of_ne build hne, ok_bind]

/-- **What decoding a Duration owes on its parts**, in a build: success exactly in range, otherwise
`ValueError`, and a result the encoder takes and the decoder gives back. -/
structure DurationClean (build : Build) (secs : Int64) (nanos : Int32) : Prop where
  ok_iff : (∃ d, partsToTimedeltaIn build secs nanos = .ok d) ↔ DurationRange secs nanos
  rejects : ¬ DurationRange secs nanos →
    ∃ msg, partsToTimedeltaIn build secs nanos = .error (.valueError msg)
  reencodes : ∀ d, partsToTimedeltaIn build secs nanos = .ok d → ∃ secs' nanos',
    timedeltaToPartsIn build d = .ok (secs', nanos') ∧
      decodeParts (encodeParts [] secs' nanos') = .ok (secs', nanos') ∧
      partsToTimedeltaIn build secs' nanos' = .ok d

/-- In range, decoding is clean in every build. -/
theorem DurationRange.clean {secs : Int64} {nanos : Int32} (h : DurationRange secs nanos)
    (build : Build) : DurationClean build secs nanos := by
  obtain ⟨d, hd, hmicros⟩ := h.partsToTimedeltaIn build
  refine ⟨iff_of_true ⟨d, hd⟩ h, fun hnot => absurd h hnot, fun d' hd' => ?_⟩
  rw [hd] at hd'
  cases hd'
  have hin : d.InRange := by
    have htrunc := h.micros
    obtain ⟨hsecs, hnanos⟩ := h
    unfold TimeDelta.InRange
    rw [hmicros]
    omega
  obtain ⟨secs', nanos', hparts⟩ := hin.parts (V := PyVal)
  have hback := partsToTimedelta_timedeltaToParts hparts
  have hrange : DurationRange secs' nanos' := by
    obtain ⟨hmagnitude, hs, hn⟩ := timedeltaToParts_eq_ok.mp hparts
    obtain ⟨hsum, hlow, hhigh, hpos, hneg⟩ := tdiv_tmod_million d.micros
    unfold DurationRange
    omega
  obtain ⟨hs, hn⟩ := hrange.ne_min
  refine ⟨secs', nanos', ?_, ?_, ?_⟩
  · rw [timedeltaToPartsIn_eq (V := PyVal), hparts]
  · rw [encodeParts_eq, List.nil_append, decodeParts_partsRecords]
  · rw [partsToTimedeltaIn_of_ok (absI64_of_ne build hs) (absI32_of_ne build hn), hback]

/-- Parts out of range are refused with `ValueError` in every build, except at the least values. -/
theorem DurationClean.of_not_range {build : Build} {secs : Int64} {nanos : Int32}
    (h : ¬ DurationRange secs nanos) (hs : secs ≠ Int64.minValue)
    (hn : nanos = Int32.minValue → 315576000000 < secs.toInt.natAbs) :
    DurationClean build secs nanos := by
  have herror : partsToTimedeltaIn build secs nanos = .error (outOfRange "duration") := by
    by_cases hgt : secs.abs > durationMaxSeconds
    · exact partsToTimedeltaIn_of_gt nanos (absI64_of_ne build hs) hgt
    · rw [secs_abs_gt hs] at hgt
      have hn : nanos ≠ Int32.minValue := fun heq => hgt (hn heq)
      rw [partsToTimedeltaIn_of_ok (absI64_of_ne build hs) (absI32_of_ne build hn),
        partsToTimedelta, if_pos]
      rw [secs_abs_gt hs, nanos_abs_gt hn]
      unfold DurationRange at h
      omega
  refine ⟨iff_of_false ?_ h, fun _ => ⟨_, herror⟩, fun d hd => ?_⟩
  · rintro ⟨d, hd⟩
    rw [herror] at hd
    cases hd
  · rw [herror] at hd
    cases hd

/-- A debug build panics on the least seconds. -/
theorem partsToTimedeltaIn_minSecs (nanos : Int32) :
    partsToTimedeltaIn .debug Int64.minValue nanos = .error negateOverflow := rfl

/-- A debug build panics on the least nanoseconds when the seconds are in range. -/
theorem partsToTimedeltaIn_minNanos {secs : Int64} (h : secs ≠ Int64.minValue)
    (hrange : secs.toInt.natAbs ≤ 315576000000) :
    partsToTimedeltaIn .debug secs Int32.minValue = .error negateOverflow := by
  have hgt : ¬ secs.abs > durationMaxSeconds := by
    rw [secs_abs_gt h]
    omega
  unfold partsToTimedeltaIn
  rw [absI64_of_ne .debug h, ok_bind, if_neg hgt]
  rfl

/-- The least parts are out of range. -/
theorem not_durationRange_min {secs : Int64} {nanos : Int32}
    (h : secs = Int64.minValue ∨ nanos = Int32.minValue) : ¬ DurationRange secs nanos := by
  intro hrange
  obtain ⟨hs, hn⟩ := hrange.ne_min
  exact h.elim hs hn

/-- **Where decoding a Duration is clean in both builds**: off the least seconds, and off the least
nanoseconds unless the seconds are refused first. -/
theorem durationClean_iff {secs : Int64} {nanos : Int32} :
    (∀ build, DurationClean build secs nanos) ↔
      secs ≠ Int64.minValue ∧
        (nanos = Int32.minValue → 315576000000 < secs.toInt.natAbs) := by
  constructor
  · intro h
    have hrejects := (h .debug).rejects
    have hs : secs ≠ Int64.minValue := by
      rintro rfl
      obtain ⟨msg, herror⟩ := hrejects (not_durationRange_min (.inl rfl))
      rw [partsToTimedeltaIn_minSecs] at herror
      cases herror
    refine ⟨hs, ?_⟩
    rintro rfl
    by_contra hle
    obtain ⟨msg, herror⟩ := hrejects (not_durationRange_min (.inr rfl))
    rw [partsToTimedeltaIn_minNanos hs (by omega)] at herror
    cases herror
  · rintro ⟨hs, hn⟩ build
    by_cases hrange : DurationRange secs nanos
    · exact hrange.clean build
    · exact .of_not_range hrange hs hn

/-- What decoding a Duration owes on a payload. -/
def DurationPayloadClean (data : Bytes) : Prop :=
  ∀ secs nanos, decodeParts data = .ok (secs, nanos) → ∀ build, DurationClean build secs nanos

/-- **A Duration payload is decoded cleanly iff its parts avoid the least values.** -/
theorem durationPayloadClean_iff (data : Bytes) :
    DurationPayloadClean data ↔ ∀ secs nanos, decodeParts data = .ok (secs, nanos) →
      secs ≠ Int64.minValue ∧
        (nanos = Int32.minValue → 315576000000 < secs.toInt.natAbs) :=
  forall₃_congr fun _ _ _ => durationClean_iff

/-- The payload of a Duration with the least seconds and no nanoseconds. -/
def leastSeconds : Bytes := [0x08, 0x80, 0x80, 0x80, 0x80, 0x80, 0x80, 0x80, 0x80, 0x80, 0x01]

/-- **A well-formed payload that is not decoded cleanly**: a debug build panics on it, and in a
release build the `OverflowError` of `timedelta` gets out. -/
theorem leastSeconds_not_clean : ¬ DurationPayloadClean leastSeconds ∧
    partsToTimedeltaIn .release Int64.minValue 0
      = .error (.overflowError "must have magnitude <= 999999999") := by
  refine ⟨fun h => ?_, by decide⟩
  have hparts : decodeParts leastSeconds = .ok (Int64.minValue, 0) := by
    have hbytes : leastSeconds = recordsBytes (partsRecords Int64.minValue 0) := by decide
    rw [hbytes, decodeParts_partsRecords]
  exact (durationClean_iff.mp (h _ _ hparts)).1 rfl

/-! ## Timestamps -/

/-- The instant of a `datetime`, in microseconds since the epoch; naive ones are read as UTC. -/
def DateTime.instant (d : DateTime) : Int := d.micros - d.offset.getD 0

/-- **What encoding a `datetime` owes on its parts**: the Timestamp range, and a payload that is read
back as the same instant in UTC. -/
structure TimestampReadBack (d : DateTime) (secs : Int64) (nanos : Int32) : Prop where
  secs_range : -62135596800 ≤ secs.toInt ∧ secs.toInt ≤ 253402300799
  nanos_range : 0 ≤ nanos.toInt ∧ nanos.toInt ≤ 999999999
  back : ∃ d', decodeTimestamp (encodeParts [] secs nanos) = .ok (.datetime d') ∧
    d'.offset = some 0 ∧ d'.instant = d.instant

/-- Decoding the parts that were encoded. -/
theorem decodeTimestamp_encodeParts (secs : Int64) (nanos : Int32) :
    decodeTimestamp (encodeParts [] secs nanos)
      = partsToDatetime secs nanos >>= fun d => .ok (.datetime d) := by
  unfold decodeTimestamp
  rw [encodeParts_eq, List.nil_append, decodeParts_partsRecords]
  rfl

/-- **An accepted `datetime` can be read back iff its instant lies in the years 1 to 9999 of UTC.** -/
theorem timestampReadBack_iff (d : DateTime) :
    (∀ secs nanos, datetimeToParts (.datetime d : PyShape PyVal) = .ok (secs, nanos) →
        TimestampReadBack d secs nanos) ↔
      minDatetimeMicros ≤ d.instant ∧ d.instant ≤ maxDatetimeMicros := by
  obtain ⟨secs, nanos, hparts, hsecs, hnanos⟩ := datetimeToParts_eq (V := PyVal) d
  have hinstant : d.instant = d.micros - d.offset.getD 0 := rfl
  rw [← hinstant] at hsecs hnanos
  -- the range of a datetime is the range of a Timestamp in seconds
  have hinstantRange : minDatetimeMicros ≤ d.instant ∧ d.instant ≤ maxDatetimeMicros ↔
      -62135596800 ≤ secs.toInt ∧ secs.toInt ≤ 253402300799 := by
    unfold minDatetimeMicros maxDatetimeMicros
    omega
  rw [hinstantRange]
  constructor
  · exact fun h => (h secs nanos hparts).secs_range
  · intro hrange secs' nanos' h
    rw [hparts] at h
    cases h
    have hn : 0 ≤ nanos.toInt ∧ nanos.toInt ≤ 999999999 := by omega
    have hdate := hinstantRange.mpr hrange
    -- what comes back is the same instant in UTC
    let utc : DateTime := ⟨d.instant, some 0, hdate.1, hdate.2, by intro o ho; cases ho; decide⟩
    have hback : partsToDatetime secs nanos = .ok utc :=
      partsToDatetime_eq_ok.mpr ⟨⟨hrange, hn⟩, rfl, show d.instant = _ by omega⟩
    refine ⟨hrange, hn, utc, ?_, rfl, Int.sub_zero _⟩
    rw [decodeTimestamp_encodeParts, hback]
    rfl

/-- 0001-01-01T00:00:00 at one hour east of UTC. -/
def firstHourEast : DateTime where
  micros := minDatetimeMicros
  offset := some (3600 * 10 ^ 6)
  min_le := by decide
  le_max := by decide
  offset_bounds := by
    intro o ho
    cases ho
    decide

/-- **A legal `datetime` that is encoded but cannot be read back.** -/
theorem firstHourEast_lost : ¬ ∀ secs nanos,
    datetimeToParts (.datetime firstHourEast : PyShape PyVal) = .ok (secs, nanos) →
      TimestampReadBack firstHourEast secs nanos := by
  rw [timestampReadBack_iff]
  decide

/-! ## What the conversions lose -/

/-- The parts of a Timestamp the protocol allows. -/
def TimestampRange (secs : Int64) (nanos : Int32) : Prop :=
  (-62135596800 ≤ secs.toInt ∧ secs.toInt ≤ 253402300799) ∧
    0 ≤ nanos.toInt ∧ nanos.toInt ≤ 999999999

/-- Both parts have the same sign, or one is zero. -/
def SameSign (secs : Int64) (nanos : Int32) : Prop :=
  (0 ≤ secs.toInt ∧ 0 ≤ nanos.toInt) ∨ (secs.toInt ≤ 0 ∧ nanos.toInt ≤ 0)

/-- A Timestamp in range comes back with whole microseconds. -/
theorem TimestampRange.truncates {V : Type} {secs : Int64} {nanos : Int32}
    (h : TimestampRange secs nanos) :
    ∃ d nanos', partsToDatetime secs nanos = .ok d ∧
      datetimeToParts (.datetime d : PyShape V) = .ok (secs, nanos') ∧
      nanos'.toInt = nanos.toInt - nanos.toInt % 1000 := by
  obtain ⟨hsecs, hnanos⟩ := h
  have hdate : minDatetimeMicros ≤ secs.toInt * 10 ^ 6 + nanos.toInt / 1000 ∧
      secs.toInt * 10 ^ 6 + nanos.toInt / 1000 ≤ maxDatetimeMicros := by
    unfold minDatetimeMicros maxDatetimeMicros
    omega
  let d : DateTime := ⟨_, some 0, hdate.1, hdate.2, by intro o ho; cases ho; decide⟩
  obtain ⟨secs', nanos', hparts, hs, hn⟩ := datetimeToParts_eq (V := V) d
  have hmicros : d.micros - d.offset.getD 0 = secs.toInt * 10 ^ 6 + nanos.toInt / 1000 :=
    Int.sub_zero _
  rw [hmicros] at hs hn
  have hsame : secs' = secs := Int64.toInt_inj.mp (by omega)
  exact ⟨d, nanos', partsToDatetime_eq_ok.mpr ⟨⟨hsecs, hnanos⟩, rfl, rfl⟩, hsame ▸ hparts, by omega⟩

/-- A Duration in range with parts of one sign comes back with whole microseconds, truncated toward
zero. The nanoseconds are truncated before `timedelta` normalizes, and the encoder divides the exact
total toward zero again, so the floors of negative days and seconds leave no trace. -/
theorem DurationRange.truncates {secs : Int64} {nanos : Int32} (h : DurationRange secs nanos)
    (hsign : SameSign secs nanos) (build : Build) :
    ∃ d nanos', FastProto.partsToTimedeltaIn build secs nanos = .ok d ∧
      timedeltaToPartsIn build d = .ok (secs, nanos') ∧
      nanos'.toInt = nanos.toInt.tdiv 1000 * 1000 := by
  obtain ⟨d, hd, hmicros⟩ := h.partsToTimedeltaIn build
  have htrunc := h.micros
  obtain ⟨hsecs, hnanos⟩ := h
  have hsigns : (0 ≤ secs.toInt ∧ 0 ≤ nanos.toInt.tdiv 1000) ∨
      (secs.toInt ≤ 0 ∧ nanos.toInt.tdiv 1000 ≤ 0) := by
    refine hsign.imp (fun hpos => ⟨hpos.1, Int.tdiv_nonneg hpos.2 (by decide)⟩)
      fun hneg => ⟨hneg.1, ?_⟩
    have hflip : (-nanos.toInt).tdiv 1000 = -nanos.toInt.tdiv 1000 := Int.neg_tdiv _ _
    have hnonneg := Int.tdiv_nonneg (show 0 ≤ -nanos.toInt by omega) (show (0 : Int) ≤ 1000 by decide)
    omega
  obtain ⟨hadd, hlow, hhigh, hup, hdown⟩ := tdiv_tmod_million d.micros
  have hn : (Int32.ofInt (nanos.toInt.tdiv 1000 * 1000)).toInt = nanos.toInt.tdiv 1000 * 1000 :=
    Int32.toInt_ofInt_of_le (by omega) (by omega)
  refine ⟨d, Int32.ofInt (nanos.toInt.tdiv 1000 * 1000), hd, ?_, hn⟩
  rw [timedeltaToPartsIn_eq (V := PyVal), timedeltaToParts_eq_ok, hn]
  omega

/-- A UTC `datetime` is read back from what is written for it. -/
theorem datetime_readBack {V : Type} {d : DateTime} (hutc : d.offset = some 0) :
    ∃ secs nanos, datetimeToParts (.datetime d : PyShape V) = .ok (secs, nanos) ∧
      decodeParts (encodeParts [] secs nanos) = .ok (secs, nanos) ∧
      partsToDatetime secs nanos = .ok d := by
  obtain ⟨secs, nanos, hparts, -⟩ := datetimeToParts_eq (V := V) d
  refine ⟨secs, nanos, hparts, ?_, partsToDatetime_datetimeToParts hutc hparts⟩
  rw [encodeParts_eq, List.nil_append, decodeParts_partsRecords]

/-- The parts of a `timedelta` are in the Duration range and of one sign. -/
theorem timedeltaToParts_range {V : Type} {d : TimeDelta} {secs : Int64} {nanos : Int32}
    (h : timedeltaToParts (.timedelta d : PyShape V) = .ok (secs, nanos)) :
    DurationRange secs nanos ∧ SameSign secs nanos := by
  obtain ⟨hmagnitude, hs, hn⟩ := timedeltaToParts_eq_ok.mp h
  obtain ⟨hsum, hlow, hhigh, hpos, hneg⟩ := tdiv_tmod_million d.micros
  unfold DurationRange SameSign
  omega

/-- A `timedelta` that is accepted is read back from what is written for it. -/
theorem timedelta_readBack {build : Build} {d : TimeDelta} {secs : Int64} {nanos : Int32}
    (h : timedeltaToPartsIn build d = .ok (secs, nanos)) :
    decodeParts (encodeParts [] secs nanos) = .ok (secs, nanos) ∧
      partsToTimedeltaIn build secs nanos = .ok d := by
  rw [timedeltaToPartsIn_eq (V := PyVal)] at h
  obtain ⟨hs, hn⟩ := (timedeltaToParts_range h).1.ne_min
  refine ⟨by rw [encodeParts_eq, List.nil_append, decodeParts_partsRecords], ?_⟩
  rw [partsToTimedeltaIn_of_ok (absI64_of_ne build hs) (absI32_of_ne build hn)]
  exact partsToTimedelta_timedeltaToParts h

/-- **The conversions lose only what is below a microsecond**: parts in range come back truncated,
every UTC `datetime` and every accepted `timedelta` comes back as it was through the payload, and the
parts of a Duration have one sign and at most 999999999 nanoseconds. -/
theorem conversions_truncate {V : Type} :
    (∀ secs nanos, TimestampRange secs nanos →
      ∃ d nanos', partsToDatetime secs nanos = .ok d ∧
        datetimeToParts (.datetime d : PyShape V) = .ok (secs, nanos') ∧
        nanos'.toInt = nanos.toInt - nanos.toInt % 1000) ∧
    (∀ build secs nanos, DurationRange secs nanos → SameSign secs nanos →
      ∃ d nanos', partsToTimedeltaIn build secs nanos = .ok d ∧
        timedeltaToPartsIn build d = .ok (secs, nanos') ∧
        nanos'.toInt = nanos.toInt.tdiv 1000 * 1000) ∧
    (∀ d : DateTime, d.offset = some 0 →
      ∃ secs nanos, datetimeToParts (.datetime d : PyShape V) = .ok (secs, nanos) ∧
        decodeParts (encodeParts [] secs nanos) = .ok (secs, nanos) ∧
        partsToDatetime secs nanos = .ok d) ∧
    ∀ build d secs nanos, timedeltaToPartsIn build d = .ok (secs, nanos) →
      SameSign secs nanos ∧ (-999999999 ≤ nanos.toInt ∧ nanos.toInt ≤ 999999999) ∧
        decodeParts (encodeParts [] secs nanos) = .ok (secs, nanos) ∧
        partsToTimedeltaIn build secs nanos = .ok d := by
  refine ⟨fun secs nanos h => h.truncates, fun build secs nanos h hsign => h.truncates hsign build,
    fun d hutc => datetime_readBack hutc, fun build d secs nanos h => ?_⟩
  have hparts := h
  rw [timedeltaToPartsIn_eq (V := PyVal)] at hparts
  obtain ⟨hrange, hsign⟩ := timedeltaToParts_range hparts
  exact ⟨hsign, hrange.2, timedelta_readBack h⟩

/-- One second and 1999 nanoseconds before zero: 999 of them are lost, toward zero. -/
theorem conversions_truncate_negative :
    ∃ d nanos', partsToTimedeltaIn .release (-1) (-1999) = .ok d ∧
      timedeltaToPartsIn .release d = .ok (-1, nanos') ∧ nanos'.toInt = -1000 :=
  (conversions_truncate (V := PyVal)).2.1 .release (-1) (-1999) (by decide)
    (.inr ⟨by decide, by decide⟩)

end FastProto
