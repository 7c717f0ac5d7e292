import Mathlib.Data.Nat.Log
import Mathlib.Tactic.Ring

/-! # Bit patterns of binary32 and binary64

The conversions between the two formats on bit patterns, with no arithmetic on real numbers:

* `widen` takes a binary32 pattern to the binary64 pattern of the same number; a NaN keeps its
  payload and becomes quiet, as the hardware conversion does;
* `narrow` rounds a binary64 pattern to binary32, to nearest with ties to even;
* `ofInt` rounds an integer to binary64 and fails past the largest finite number.

A magnitude is a pattern without its sign bit. -/

namespace Lib

namespace FloatBits

/-- `m / 2 ^ shift`, rounded to nearest with ties to even. -/
def roundEven (m shift : Nat) : Nat :=
  let quotient := m / 2 ^ shift
  let twice := 2 * (m % 2 ^ shift)
  if 2 ^ shift < twice ∨ (twice = 2 ^ shift ∧ quotient % 2 = 1) then quotient + 1 else quotient

/-- A multiple of the unit is not rounded. -/
theorem roundEven_mul (q shift : Nat) : roundEven (q * 2 ^ shift) shift = q := by
  have hpos : 0 < 2 ^ shift := Nat.two_pow_pos shift
  unfold roundEven
  rw [Nat.mul_div_cancel _ hpos, Nat.mul_mod_left]
  simp only [Nat.mul_zero]
  rw [if_neg (by omega)]

/-! ## Magnitudes -/

/-- A binary32 NaN magnitude made quiet; every other magnitude as it is. -/
def quietMag (n : Nat) : Nat :=
  if n / 2 ^ 23 = 255 ∧ n % 2 ^ 23 ≠ 0 then 255 * 2 ^ 23 + 2 ^ 22 + n % 2 ^ 22 else n

/-- The binary64 magnitude of a binary32 magnitude. -/
def widenMag (n : Nat) : Nat :=
  let e := n / 2 ^ 23
  let m := n % 2 ^ 23
  if e = 255 then
    if m = 0 then 2047 * 2 ^ 52 else 2047 * 2 ^ 52 + 2 ^ 51 + m % 2 ^ 22 * 2 ^ 29
  else if e = 0 then
    -- a subnormal number is normal in the wider format
    if m = 0 then 0 else (m.log2 + 874) * 2 ^ 52 + (m - 2 ^ m.log2) * 2 ^ (52 - m.log2)
  else (e + 896) * 2 ^ 52 + m * 2 ^ 29

/-- The binary32 magnitude of a binary64 magnitude, rounded. -/
def narrowMag (n : Nat) : Nat :=
  let e := n / 2 ^ 52
  let m := n % 2 ^ 52
  if e = 2047 then
    if m = 0 then 255 * 2 ^ 23 else 255 * 2 ^ 23 + 2 ^ 22 + m / 2 ^ 29 % 2 ^ 22
  else
    let biased := max e 1
    let significand := if e = 0 then m else 2 ^ 52 + m
    let shift := if 897 ≤ biased then 29 else 926 - biased
    min ((biased - 897) * 2 ^ 23 + roundEven significand shift) (255 * 2 ^ 23)

/-- The bounds of the highest used bit of a 23-bit mantissa. -/
theorem log2_mantissa {m : Nat} (h : m ≠ 0) (hlt : m < 2 ^ 23) :
    2 ^ m.log2 ≤ m ∧ m < 2 * 2 ^ m.log2 ∧ m.log2 ≤ 22 := by
  have hlog := (Nat.log2_eq_iff h).mp rfl
  have hle := (Nat.log2_lt h).mpr hlt
  rw [Nat.pow_succ] at hlog
  omega

/-- The mantissa of a subnormal number in the wider format is below its unit. -/
theorem subnormal_mantissa_lt {m : Nat} (h : m ≠ 0) (hlt : m < 2 ^ 23) :
    (m - 2 ^ m.log2) * 2 ^ (52 - m.log2) < 2 ^ 52 := by
  obtain ⟨hle, hlt', hlog⟩ := log2_mantissa h hlt
  have hpow : (2 : Nat) ^ 52 = 2 ^ m.log2 * 2 ^ (52 - m.log2) := by
    rw [← Nat.pow_add]
    congr 1
    omega
  rw [hpow]
  exact Nat.mul_lt_mul_of_pos_right (by omega) (Nat.two_pow_pos _)

/-- Widening stays within 63 bits. -/
theorem widenMag_lt {n : Nat} (h : n < 2 ^ 31) : widenMag n < 2 ^ 63 := by
  unfold widenMag
  dsimp only
  have hm : n % 2 ^ 23 < 2 ^ 23 := Nat.mod_lt _ (by decide)
  split
  · split <;> omega
  · split
    · split
      · decide
      · rename_i hne
        have := subnormal_mantissa_lt hne hm
        have := (log2_mantissa hne hm).2.2
        omega
    · omega

/-- Zero narrows to zero. -/
theorem narrowMag_zero : narrowMag 0 = 0 := by
  have h := roundEven_mul 0 925
  rw [Nat.zero_mul] at h
  simp only [narrowMag, Nat.zero_div, Nat.zero_mod]
  rw [if_neg (by decide), if_pos trivial, if_neg (by decide), show 926 - max 0 1 = 925 from rfl, h]
  decide

/-- **Narrowing undoes widening**, up to the quiet bit of a NaN. -/
theorem narrowMag_widenMag {n : Nat} (h : n < 2 ^ 31) : narrowMag (widenMag n) = quietMag n := by
  have hm : n % 2 ^ 23 < 2 ^ 23 := Nat.mod_lt _ (by decide)
  have hn : n = n / 2 ^ 23 * 2 ^ 23 + n % 2 ^ 23 := by omega
  unfold widenMag quietMag
  dsimp only
  by_cases he : n / 2 ^ 23 = 255
  · rw [if_pos he]
    by_cases hz : n % 2 ^ 23 = 0
    · rw [if_pos hz, if_neg (fun hc => hc.2 hz), hn, he, hz]
      decide
    · rw [if_neg hz, if_pos ⟨he, hz⟩]
      unfold narrowMag
      dsimp only
      rw [if_pos (by omega), if_neg (by omega)]
      omega
  · rw [if_neg he, if_neg (show ¬ (n / 2 ^ 23 = 255 ∧ n % 2 ^ 23 ≠ 0) from fun hc => he hc.1)]
    by_cases he0 : n / 2 ^ 23 = 0
    · rw [if_pos he0]
      by_cases hz : n % 2 ^ 23 = 0
      · rw [if_pos hz, hn, he0, hz]
        exact narrowMag_zero
      · -- subnormal: the widened significand is `m` shifted up by what `narrow` shifts down
        rw [if_neg hz]
        have hlt := subnormal_mantissa_lt hz hm
        obtain ⟨hle, -, hlog⟩ := log2_mantissa hz hm
        generalize n % 2 ^ 23 = m at hz hm hn hlt hle hlog
        have hmul : 2 ^ 52 + (m - 2 ^ m.log2) * 2 ^ (52 - m.log2) = m * 2 ^ (52 - m.log2) := by
          have hpow : (2 : Nat) ^ 52 = 2 ^ m.log2 * 2 ^ (52 - m.log2) := by
            rw [← Nat.pow_add]
            congr 1
            omega
          rw [hpow, ← Nat.add_mul]
          congr 1
          omega
        have hdiv : ((m.log2 + 874) * 2 ^ 52 + (m - 2 ^ m.log2) * 2 ^ (52 - m.log2)) / 2 ^ 52
            = m.log2 + 874 := by omega
        have hmod : ((m.log2 + 874) * 2 ^ 52 + (m - 2 ^ m.log2) * 2 ^ (52 - m.log2)) % 2 ^ 52
            = (m - 2 ^ m.log2) * 2 ^ (52 - m.log2) := by omega
        unfold narrowMag
        dsimp only
        rw [hdiv, hmod, if_neg (by omega), if_neg (by omega : ¬ m.log2 + 874 = 0), hmul,
          show max (m.log2 + 874) 1 = m.log2 + 874 by omega,
          if_neg (by omega), show 926 - (m.log2 + 874) = 52 - m.log2 by omega, roundEven_mul,
          show m.log2 + 874 - 897 = 0 by omega, Nat.zero_mul, Nat.zero_add,
          show min m (255 * 2 ^ 23) = m by omega]
        omega
    · rw [if_neg he0]
      have hlt : n / 2 ^ 23 < 255 := by omega
      have hdiv : ((n / 2 ^ 23 + 896) * 2 ^ 52 + n % 2 ^ 23 * 2 ^ 29) / 2 ^ 52
          = n / 2 ^ 23 + 896 := by omega
      have hmod : ((n / 2 ^ 23 + 896) * 2 ^ 52 + n % 2 ^ 23 * 2 ^ 29) % 2 ^ 52
          = n % 2 ^ 23 * 2 ^ 29 := by omega
      unfold narrowMag
      dsimp only
      rw [hdiv, hmod, if_neg (by omega), if_neg (by omega : ¬ n / 2 ^ 23 + 896 = 0),
        show max (n / 2 ^ 23 + 896) 1 = n / 2 ^ 23 + 896 by omega,
        if_pos (by omega), show 2 ^ 52 + n % 2 ^ 23 * 2 ^ 29 = (2 ^ 23 + n % 2 ^ 23) * 2 ^ 29 by omega,
        roundEven_mul]
      omega

/-- Making a NaN quiet does not change its widening. -/
theorem widenMag_quietMag (n : Nat) : widenMag (quietMag n) = widenMag n := by
  unfold quietMag
  by_cases h : n / 2 ^ 23 = 255 ∧ n % 2 ^ 23 ≠ 0
  · rw [if_pos h]
    unfold widenMag
    dsimp only
    rw [if_pos (by omega), if_neg (by omega), if_pos h.1, if_neg h.2]
    omega
  · rw [if_neg h]

/-- A quiet magnitude stays within 31 bits. -/
theorem quietMag_lt {n : Nat} (h : n < 2 ^ 31) : quietMag n < 2 ^ 31 := by
  unfold quietMag
  split
  · omega
  · exact h

/-- Only zero is zero once quiet. -/
theorem quietMag_eq_zero {n : Nat} : quietMag n = 0 ↔ n = 0 := by
  unfold quietMag
  split
  · omega
  · rfl

/-! ## Patterns -/

/-- A binary32 pattern with its NaN made quiet. -/
def quiet (bits : UInt32) : UInt32 :=
  UInt32.ofNat (bits.toNat / 2 ^ 31 * 2 ^ 31 + quietMag (bits.toNat % 2 ^ 31))

/-- The binary64 pattern of a binary32 pattern. -/
def widen (bits : UInt32) : UInt64 :=
  UInt64.ofNat (bits.toNat / 2 ^ 31 * 2 ^ 63 + widenMag (bits.toNat % 2 ^ 31))

/-- The binary32 pattern a binary64 pattern rounds to. -/
def narrow (bits : UInt64) : UInt32 :=
  UInt32.ofNat (bits.toNat / 2 ^ 63 * 2 ^ 31 + narrowMag (bits.toNat % 2 ^ 63))

/-- The sign and the magnitude of a widened pattern. -/
theorem toNat_widen (bits : UInt32) :
    (widen bits).toNat = bits.toNat / 2 ^ 31 * 2 ^ 63 + widenMag (bits.toNat % 2 ^ 31) := by
  have hlt := widenMag_lt (n := bits.toNat % 2 ^ 31) (Nat.mod_lt _ (by decide))
  have hb := bits.toNat_lt
  rw [widen, UInt64.toNat_ofNat', Nat.mod_eq_of_lt (by omega)]

/-- The sign and the magnitude of a quiet pattern. -/
theorem toNat_quiet (bits : UInt32) :
    (quiet bits).toNat = bits.toNat / 2 ^ 31 * 2 ^ 31 + quietMag (bits.toNat % 2 ^ 31) := by
  have hlt := quietMag_lt (n := bits.toNat % 2 ^ 31) (Nat.mod_lt _ (by decide))
  have hb := bits.toNat_lt
  rw [quiet, UInt32.toNat_ofNat', Nat.mod_eq_of_lt (by omega)]

/-- **Narrowing undoes widening**, up to the quiet bit of a NaN. -/
theorem narrow_widen (bits : UInt32) : narrow (widen bits) = quiet bits := by
  have hlt := widenMag_lt (n := bits.toNat % 2 ^ 31) (Nat.mod_lt _ (by decide))
  rw [narrow, toNat_widen,
    show (bits.toNat / 2 ^ 31 * 2 ^ 63 + widenMag (bits.toNat % 2 ^ 31)) / 2 ^ 63
      = bits.toNat / 2 ^ 31 by omega,
    show (bits.toNat / 2 ^ 31 * 2 ^ 63 + widenMag (bits.toNat % 2 ^ 31)) % 2 ^ 63
      = widenMag (bits.toNat % 2 ^ 31) by omega,
    narrowMag_widenMag (Nat.mod_lt _ (by decide)), quiet]

/-- **A binary64 pattern that came from binary32 survives the round trip.** -/
theorem widen_quiet (bits : UInt32) : widen (quiet bits) = widen bits := by
  have hlt := quietMag_lt (n := bits.toNat % 2 ^ 31) (Nat.mod_lt _ (by decide))
  rw [widen, widen, toNat_quiet,
    show (bits.toNat / 2 ^ 31 * 2 ^ 31 + quietMag (bits.toNat % 2 ^ 31)) / 2 ^ 31
      = bits.toNat / 2 ^ 31 by omega,
    show (bits.toNat / 2 ^ 31 * 2 ^ 31 + quietMag (bits.toNat % 2 ^ 31)) % 2 ^ 31
      = quietMag (bits.toNat % 2 ^ 31) by omega,
    widenMag_quietMag]

/-- Only the zero pattern is zero once quiet. -/
theorem quiet_eq_zero {bits : UInt32} : quiet bits = 0 ↔ bits = 0 := by
  rw [← UInt32.toNat_inj, ← UInt32.toNat_inj, toNat_quiet]
  have h := @quietMag_eq_zero (bits.toNat % 2 ^ 31)
  simp only [UInt32.toNat_zero]
  omega

/-- Zero widens to zero. -/
@[simp] theorem widen_zero : widen 0 = 0 := by decide

/-! ## Integers -/

/-- The binary64 magnitude of a natural number, rounded; it may exceed the finite range. -/
def ofNatMag (n : Nat) : Nat :=
  if n = 0 then 0
  else if n.log2 ≤ 52 then (n.log2 + 1023) * 2 ^ 52 + (n - 2 ^ n.log2) * 2 ^ (52 - n.log2)
  else (n.log2 + 1022) * 2 ^ 52 + roundEven n (n.log2 - 52)

/-- The binary64 pattern an integer rounds to, if it is in the finite range. -/
def ofInt (i : Int) : Option UInt64 :=
  let mag := ofNatMag i.natAbs
  if 2047 * 2 ^ 52 ≤ mag then none
  else some (UInt64.ofNat ((if i < 0 then 2 ^ 63 else 0) + mag))

end FloatBits

end Lib
