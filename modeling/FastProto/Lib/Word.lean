import Mathlib.Data.BitVec
import Mathlib.Data.List.Basic

/-! # Machine-word arithmetic

Facts about fixed-width words that byte formats rest on: the zig-zag map and its inverse, the seven
low bits of a byte and its high bit, and little-endian byte strings of a fixed width. -/

namespace Lib

/-! ## Zig-zag -/

/-- An arithmetic shift by the whole width but one copies the sign bit everywhere. -/
theorem getLsbD_sshiftRight_last {w : Nat} (x : BitVec (w + 1)) {i : Nat} (hi : i < w + 1) :
    (x.sshiftRight w).getLsbD i = x.msb := by
  rw [BitVec.getLsbD_sshiftRight]
  by_cases h : i = 0
  · subst h
    simp [BitVec.msb_eq_getLsbD_last]
  · rw [if_neg (by omega)]
    simp; omega

/-- The low bit of a zig-zag code is the sign. -/
theorem zigzag_low {w : Nat} (x : BitVec (w + 1)) :
    ((x <<< 1) ^^^ (x.sshiftRight w)) &&& 1#(w + 1) = if x.msb then 1#(w + 1) else 0#(w + 1) := by
  apply BitVec.eq_of_getLsbD_eq
  intro i hi
  rw [BitVec.getLsbD_and, BitVec.getLsbD_xor, getLsbD_sshiftRight_last x hi]
  cases i with
  | zero => cases x.msb <;> simp
  | succ i => cases x.msb <;> simp

/-- **Zig-zag decoding undoes zig-zag encoding**, at every width. -/
theorem unzigzag_zigzag {w : Nat} (x : BitVec (w + 1)) :
    (((x <<< 1) ^^^ (x.sshiftRight w)) >>> 1)
      ^^^ -(((x <<< 1) ^^^ (x.sshiftRight w)) &&& 1#(w + 1)) = x := by
  rw [zigzag_low]
  apply BitVec.eq_of_getLsbD_eq
  intro i hi
  have hfill : (-(if x.msb then 1#(w + 1) else 0#(w + 1))).getLsbD i = x.msb := by
    cases x.msb with
    | false => simp
    | true => simp [BitVec.neg_one_eq_allOnes, hi]
  rw [BitVec.getLsbD_xor, hfill, BitVec.getLsbD_ushiftRight, BitVec.getLsbD_xor]
  by_cases h : 1 + i < w + 1
  · -- below the top bit, the shifted copy of `x` meets the sign twice
    rw [getLsbD_sshiftRight_last x h, BitVec.getLsbD_shiftLeft]
    have hlt : i < w := by omega
    simp [Nat.add_comm 1 i]
    omega
  · -- at the top bit, only the sign is left
    have hw : i = w := by omega
    subst hw
    rw [BitVec.getLsbD_of_ge _ _ (by omega), BitVec.getLsbD_of_ge _ _ (by omega)]
    simp [BitVec.msb_eq_getLsbD_last]

/-! ## Seven-bit groups -/

/-- Shifting right by seven divides by 128. -/
theorem toNat_shiftRight_seven (v : UInt64) : (v >>> 7).toNat = v.toNat / 128 := by
  rw [UInt64.toNat_shiftRight]
  simp [Nat.shiftRight_eq_div_pow]

/-- The low seven bits of a word, as a byte. -/
theorem toNat_lowGroup (v : UInt64) : ((v &&& 0x7f).toUInt8).toNat = v.toNat % 128 := by
  have h : (0x7f : UInt64).toNat = 2 ^ 7 - 1 := rfl
  rw [UInt64.toNat_toUInt8, UInt64.toNat_and, h, Nat.and_two_pow_sub_one_eq_mod]
  omega

/-- Masking a byte with `0x7f` keeps it modulo 128. -/
theorem toNat_and_7f (b : UInt8) : (b &&& 0x7f).toNat = b.toNat % 128 := by
  have h : (0x7f : UInt8).toNat = 2 ^ 7 - 1 := rfl
  rw [UInt8.toNat_and, h, Nat.and_two_pow_sub_one_eq_mod]

/-- Setting the high bit of a byte below 128 adds 128. -/
theorem toNat_or_80 {b : UInt8} (h : b.toNat < 128) : (b ||| 0x80).toNat = b.toNat + 128 := by
  have h80 : (0x80 : UInt8).toNat = 2 ^ 7 * 1 := rfl
  rw [UInt8.toNat_or, h80, Nat.or_comm, ← Nat.two_pow_add_eq_or_of_lt h]
  omega

set_option maxRecDepth 4000 in
/-- The high bit of a byte is clear iff the byte is below 128. -/
theorem and_80_eq_zero_iff (b : UInt8) : b &&& 0x80 = 0 ↔ b.toNat < 128 := by
  have h : ∀ n : Fin 256, n.val &&& 128 = 0 ↔ n.val < 128 := by decide +kernel
  rw [← UInt8.toNat_inj, UInt8.toNat_and]
  exact h ⟨b.toNat, b.toNat_lt⟩

/-- Adding the next group to a partial sum: an `or` above the bits used so far is a sum. -/
theorem or_shiftLeft_eq (acc : UInt64) (g : UInt8) {s : Nat} (hs : s < 64)
    (hacc : acc.toNat < 2 ^ s) :
    (acc ||| (g.toUInt64 <<< UInt64.ofNat s)).toNat
      = acc.toNat + 2 ^ s * (g.toNat % 2 ^ (64 - s)) := by
  have hsh : (UInt64.ofNat s).toNat % 64 = s := by
    rw [UInt64.toNat_ofNat']
    omega
  have hsplit : (2 : Nat) ^ 64 = 2 ^ s * 2 ^ (64 - s) := by
    rw [← Nat.pow_add]
    congr 1
    omega
  have hval : (g.toUInt64 <<< UInt64.ofNat s).toNat = 2 ^ s * (g.toNat % 2 ^ (64 - s)) := by
    rw [UInt64.toNat_shiftLeft, hsh, UInt8.toNat_toUInt64, Nat.shiftLeft_eq, hsplit, Nat.mul_comm,
      Nat.mul_mod_mul_left]
  rw [UInt64.toNat_or, hval, Nat.or_comm, ← Nat.two_pow_add_eq_or_of_lt hacc, Nat.add_comm]

/-! ## Little-endian bytes -/

/-- The `n` low bytes of `v`, least significant first. -/
def toLeBytes : Nat → Nat → List UInt8
  | 0, _ => []
  | n + 1, v => UInt8.ofNat v :: toLeBytes n (v / 256)

/-- The number written by a little-endian byte string. -/
def fromLeBytes : List UInt8 → Nat
  | [] => 0
  | b :: bs => b.toNat + 256 * fromLeBytes bs

@[simp] theorem length_toLeBytes (n v : Nat) : (toLeBytes n v).length = n := by
  induction n generalizing v with
  | zero => rfl
  | succ n ih => rw [toLeBytes, List.length_cons, ih]

/-- Reading back the low bytes of `v` gives `v` modulo their range. -/
theorem fromLeBytes_toLeBytes (n v : Nat) : fromLeBytes (toLeBytes n v) = v % 256 ^ n := by
  induction n generalizing v with
  | zero => simp [toLeBytes, fromLeBytes, Nat.mod_one]
  | succ n ih =>
      rw [toLeBytes, fromLeBytes, ih, UInt8.toNat_ofNat', Nat.pow_succ 256, Nat.mul_comm (256 ^ n),
        Nat.mod_mul]

end Lib
