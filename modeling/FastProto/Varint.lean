import FastProto.Wire
import Mathlib.Algebra.BigOperators.Group.Finset.Basic
import Mathlib.Algebra.BigOperators.Ring.Finset
import Mathlib.Tactic.Ring

/-! # Varints on arbitrary input

What `read_varint` makes of any bytes: the sum of the seven-bit groups up to the first byte whose high
bit is clear, when that is one of the first ten. `varint_exact` adds that `write_varint` stays in its
scratch array and writes the shortest bytes that read back. -/

namespace FastProto

open Lib Lib.Cursor

/-! ## Groups -/

/-- Whether a byte ends a varint: its high bit is clear. -/
def endsVarint (b : UInt8) : Bool := decide (b.toNat < 128)

/-- The sum of the seven-bit groups of some bytes, least significant first. -/
def groupSum (bs : Bytes) : Nat :=
  ∑ i ∈ Finset.range bs.length, (bs.getD i 0).toNat % 128 * 2 ^ (7 * i)

@[simp] theorem groupSum_nil : groupSum [] = 0 := rfl

/-- The first byte holds the lowest group. -/
theorem groupSum_cons (b : UInt8) (bs : Bytes) :
    groupSum (b :: bs) = b.toNat % 128 + 128 * groupSum bs := by
  unfold groupSum
  rw [List.length_cons, Finset.sum_range_succ', Finset.mul_sum, Nat.add_comm]
  refine congrArg₂ (· + ·) (by simp) (Finset.sum_congr rfl fun i _ => ?_)
  rw [List.getD_cons_succ, Nat.mul_add, Nat.pow_add]
  ring

/-- Seven bits a byte. -/
theorem groupSum_lt (bs : Bytes) : groupSum bs < 2 ^ (7 * bs.length) := by
  induction bs with
  | nil => simp
  | cons b bs ih =>
      rw [groupSum_cons, List.length_cons, Nat.mul_add, Nat.pow_add]
      omega

/-- The groups of the first bytes of a buffer. -/
theorem groupSum_take {bs : Bytes} {n : Nat} (h : (bs.take n).length = n) :
    groupSum (bs.take n) = ∑ i ∈ Finset.range n, (bs.getD i 0).toNat % 128 * 2 ^ (7 * i) := by
  unfold groupSum
  rw [h]
  refine Finset.sum_congr rfl fun i hi => ?_
  rw [List.getD_eq_getElem?_getD, List.getElem?_take_of_lt (Finset.mem_range.mp hi),
    List.getD_eq_getElem?_getD]

/-- Adding a group at its shift, modulo `2 ^ 64`: the bits it loses are those past the top. -/
theorem or_group_eq (acc : UInt64) (b : UInt8) {s : Nat} (hs : s < 64) (hacc : acc.toNat < 2 ^ s) :
    acc ||| ((b &&& 0x7f).toUInt64 <<< UInt64.ofNat s)
      = UInt64.ofNat (acc.toNat + 2 ^ s * (b.toNat % 128)) := by
  have hsplit : (2 : Nat) ^ 64 = 2 ^ s * 2 ^ (64 - s) := by
    rw [← Nat.pow_add]
    congr 1
    omega
  rw [← UInt64.toNat_inj, or_shiftLeft_eq acc _ hs hacc, toNat_and_7f, UInt64.toNat_ofNat', hsplit,
    Nat.mod_mul, Nat.add_mul_mod_self_left, Nat.mod_eq_of_lt hacc,
    Nat.add_mul_div_left _ _ (Nat.two_pow_pos s), Nat.div_eq_of_lt hacc, Nat.zero_add]

/-! ## Reading -/

namespace Reader

/-- The outcome of reading a varint of at most `n` bytes, with `acc` below the shift `s`. -/
def varintOutcome (acc s n : Nat) (pre bs : Bytes) : Except WireError (UInt64 × Reader) :=
  match (bs.take n).findIdx? endsVarint with
  | some i =>
      .ok (UInt64.ofNat (acc + 2 ^ s * groupSum (bs.take (i + 1))),
        between (pre ++ bs.take (i + 1)) (bs.drop (i + 1)))
  | none => .error (if bs.length < n then .unexpectedEof else .varintOverflow)

/-- A continuation byte moves the outcome to the bytes after it. -/
theorem varintOutcome_more {acc s n : Nat} {pre bs : Bytes} {b : UInt8}
    (hb : endsVarint b = false) :
    varintOutcome acc s (n + 1) pre (b :: bs)
      = varintOutcome (acc + 2 ^ s * (b.toNat % 128)) (s + 7) n (pre ++ [b]) bs := by
  unfold varintOutcome
  rw [List.take_succ_cons, List.findIdx?_cons, if_neg (by simp [hb])]
  cases (bs.take n).findIdx? endsVarint with
  | none => simp
  | some i =>
      simp only [Option.map_some, List.take_succ_cons, List.drop_succ_cons, groupSum_cons,
        List.append_assoc, List.singleton_append]
      rw [Nat.pow_add, Nat.mul_add]
      congr 3
      ring

/-- The outcome depends on the partial sum modulo `2 ^ 64` only. -/
theorem varintOutcome_mod (acc s n : Nat) (pre bs : Bytes) :
    varintOutcome (acc % 2 ^ 64) s n pre bs = varintOutcome acc s n pre bs := by
  unfold varintOutcome
  split
  · congr 2
    rw [← UInt64.toNat_inj, UInt64.toNat_ofNat', UInt64.toNat_ofNat', Nat.mod_add_mod]
  · rfl

/-- **The loop of `read_varint`** on arbitrary bytes. -/
theorem readVarintLoop_eq (n : Nat) :
    ∀ (s : Nat) (acc : UInt64) (pre bs : Bytes), s + 7 * n = 70 → acc.toNat < 2 ^ s →
      readVarintLoop acc (List.range' s n 7) (between pre bs)
        = varintOutcome acc.toNat s n pre bs := by
  induction n with
  | zero =>
      intro s acc pre bs _ _
      simp [varintOutcome, readVarintLoop]
  | succ n ih =>
      intro s acc pre bs hs hacc
      have hlt : s < 64 := by omega
      rw [List.range'_succ, readVarintLoop_cons, bind_apply]
      cases bs with
      | nil =>
          rw [show nextByte (between pre []) = .error .unexpectedEof from next_nil _ pre]
          rfl
      | cons b bs =>
          rw [show nextByte (between pre (b :: bs)) = .ok (b, between (pre ++ [b]) bs) from
            reads_next _ b pre bs, ok_bind, or_group_eq acc b hlt hacc]
          dsimp only
          by_cases hb : b.toNat < 128
          · rw [if_pos ((and_80_eq_zero_iff b).mpr hb), pure_apply, varintOutcome,
              List.take_succ_cons, List.findIdx?_cons, if_pos (by simp [endsVarint, hb])]
            simp [groupSum_cons]
          · rw [if_neg (mt (and_80_eq_zero_iff b).mp hb),
              varintOutcome_more (by simp [endsVarint, hb]), ih (s + 7) _ _ _ (by omega),
              UInt64.toNat_ofNat', varintOutcome_mod]
            rw [UInt64.toNat_ofNat']
            refine Nat.lt_of_le_of_lt (Nat.mod_le _ _) ?_
            have hgroup : b.toNat % 128 ≤ 127 := by omega
            have := Nat.mul_le_mul_left (2 ^ s) hgroup
            rw [Nat.pow_add]
            omega

/-- **`read_varint` on arbitrary bytes.** -/
theorem readVarint_eq (pre bs : Bytes) :
    readVarint (between pre bs) = varintOutcome 0 0 10 pre bs := by
  unfold readVarint
  rw [bind_apply]
  cases bs with
  | nil =>
      rw [show nextByte (between pre []) = .error .unexpectedEof from next_nil _ pre]
      rfl
  | cons b bs =>
      rw [show nextByte (between pre (b :: bs)) = .ok (b, between (pre ++ [b]) bs) from
        reads_next _ b pre bs, ok_bind]
      dsimp only
      by_cases hb : b.toNat < 128
      · rw [if_pos ((and_80_eq_zero_iff b).mpr hb), pure_apply, varintOutcome,
          List.take_succ_cons, List.findIdx?_cons, if_pos (by simp [endsVarint, hb])]
        have hvalue : b.toUInt64 = UInt64.ofNat (0 + 2 ^ 0 * groupSum [b]) := by
          rw [groupSum_cons, groupSum_nil, ← UInt64.toNat_inj, UInt8.toNat_toUInt64,
            UInt64.toNat_ofNat']
          omega
        simp [hvalue]
      · have hlow : (b &&& 0x7f).toUInt64.toNat = b.toNat % 128 := by
          rw [UInt8.toNat_toUInt64, toNat_and_7f]
        rw [if_neg (mt (and_80_eq_zero_iff b).mp hb),
          show [7, 14, 21, 28, 35, 42, 49, 56, 63] = List.range' 7 9 7 from rfl,
          readVarintLoop_eq 9 7 _ _ _ (by omega) (by rw [hlow]; omega), hlow,
          varintOutcome_more (by simp [endsVarint, hb])]
        simp

end Reader

/-! ## Writing -/

/-- The loop of `write_varint`; none where it would index past the end of its scratch array, which
has `slots` bytes left. -/
def fillScratch : Nat → UInt64 → Option Bytes
  | 0, _ => none
  | slots + 1, value =>
      let byte := (value &&& 0x7f).toUInt8
      let value := value >>> 7
      if value = 0 then some [byte] else (fillScratch slots value).map ((byte ||| 0x80) :: ·)

/-- `write_varint`; none is a panic. -/
def writeVarintIndexed (buf : Bytes) (value : UInt64) : Option Bytes :=
  if value < 0x80 then some (buf ++ [value.toUInt8])
  else (fillScratch 10 value).map (buf ++ ·)

/-- The loop ends before the scratch array does. -/
theorem fillScratch_eq (n : Nat) : ∀ v : UInt64, v.toNat < 2 ^ (7 * (n + 1)) →
    fillScratch (n + 1) v = some (varintGroups (n + 1) v) := by
  induction n with
  | zero =>
      intro v hv
      have hlast : v >>> 7 = 0 := toNat_shiftRight_eq_zero.mpr (by omega)
      rw [fillScratch, varintGroups]
      simp only [hlast, if_true]
  | succ n ih =>
      intro v hv
      rw [fillScratch, varintGroups]
      split
      · rfl
      · rw [ih (v >>> 7), Option.map_some]
        rw [toNat_shiftRight_seven]
        refine Nat.div_lt_of_lt_mul ?_
        rwa [Nat.mul_add 7, Nat.pow_add, Nat.mul_comm] at hv

/-- **`write_varint` does not panic.** -/
theorem writeVarintIndexed_eq (buf : Bytes) (value : UInt64) :
    writeVarintIndexed buf value = some (writeVarint buf value) := by
  unfold writeVarintIndexed writeVarint
  have := value.toNat_lt
  rw [fillScratch_eq 9 value (by omega), apply_ite some]
  rfl

/-- The length of a varint, by the bits of its value. -/
theorem varintLen_le {value : UInt64} {k : Nat} (hk : 0 < k) (h : value.toNat < 2 ^ (7 * k)) :
    varintLen value ≤ k := by
  unfold varintLen
  rw [UInt64.toNat_or, show (1 : UInt64).toNat = 1 from rfl, log2_or_one]
  have hlog : value.toNat.log2 < 7 * k := by
    by_cases hzero : value.toNat = 0
    · rw [hzero, Nat.log2_zero]
      omega
    · exact (Nat.log2_lt hzero).mpr h
  omega

/-- **Nothing shorter than a varint reads back as its value.** -/
theorem varintLen_le_of_read {bs : Bytes} {v : UInt64} {r : Reader}
    (h : Reader.readVarint (Reader.new bs) = .ok (v, r)) : varintLen v ≤ r.pos := by
  have hread := Reader.readVarint_eq [] bs
  rw [← mk_zero] at hread
  rw [Reader.new, hread, Reader.varintOutcome] at h
  split at h
  · rename_i i hi
    cases h
    have hlt : i < (bs.take 10).length := (List.findIdx?_eq_some_iff_findIdx_eq.mp hi).1
    have hlen : (bs.take (i + 1)).length = i + 1 := by
      rw [List.length_take] at hlt ⊢
      omega
    have hsum := groupSum_lt (bs.take (i + 1))
    rw [between_pos, List.nil_append, hlen]
    refine varintLen_le (Nat.succ_pos i) (Nat.lt_of_le_of_lt ?_ (hlen ▸ hsum))
    rw [UInt64.toNat_ofNat', Nat.pow_zero, Nat.one_mul, Nat.zero_add]
    exact Nat.mod_le _ _
  · cases h

/-- **Varint writing and reading are exact inverses in any context**, and reading is the sum of the
groups up to the first of ten bytes whose high bit is clear. -/
theorem varint_exact :
    (∀ (v : UInt64) (p s : Bytes),
      writeVarintIndexed p v = some (writeVarint p v) ∧
      (∃ chunk, writeVarint p v = p ++ chunk ∧ chunk.length = varintLen v) ∧
      1 ≤ varintLen v ∧ varintLen v ≤ 10 ∧
      (∀ bs r, Reader.readVarint (Reader.new bs) = .ok (v, r) → varintLen v ≤ r.pos) ∧
      Reader.readVarint ⟨writeVarint p v ++ s, p.length⟩
        = .ok (v, ⟨writeVarint p v ++ s, (writeVarint p v).length⟩)) ∧
    (∀ pre bs : Bytes, Reader.readVarint ⟨pre ++ bs, pre.length⟩ =
      match (bs.take 10).findIdx? fun b => decide (b.toNat < 128) with
      | some i =>
          .ok (UInt64.ofNat (∑ j ∈ Finset.range (i + 1), (bs.getD j 0).toNat % 128 * 2 ^ (7 * j)),
            ⟨pre ++ bs, pre.length + (i + 1)⟩)
      | none => .error (if bs.length < 10 then .unexpectedEof else .varintOverflow)) := by
  refine ⟨fun v p s => ⟨writeVarintIndexed_eq p v, ?_, varintLen_pos v, ?_, ?_, ?_⟩, ?_⟩
  · exact ⟨varintBytes v, writeVarint_eq p v, length_varintBytes v⟩
  · have := v.toNat_lt
    exact varintLen_le (by omega) (by omega)
  · exact fun bs r => varintLen_le_of_read
  · have hread := Reader.reads_varint v p s
    rw [writeVarint_eq]
    rw [between, between, ← List.append_assoc] at hread
    exact hread
  · intro pre bs
    have hread := Reader.readVarint_eq pre bs
    rw [between, Reader.varintOutcome] at hread
    rw [hread]
    change (match (bs.take 10).findIdx? endsVarint with | some _ => _ | none => _)
      = match (bs.take 10).findIdx? endsVarint with | some _ => _ | none => _
    split
    · -- the varint ends at the first byte below 128
      rename_i i hi
      have hlt : i < (bs.take 10).length := (List.findIdx?_eq_some_iff_findIdx_eq.mp hi).1
      rw [List.length_take] at hlt
      have hlen : (bs.take (i + 1)).length = i + 1 := by
        rw [List.length_take]
        omega
      rw [groupSum_take hlen, between, List.append_assoc, List.take_append_drop,
        List.length_append, hlen, Nat.pow_zero, Nat.one_mul, Nat.zero_add]
    · rfl

end FastProto
