import FastProto.Descriptor
import FastProto.Lib.Search

/-! # The lookup table of the decoder against a linear scan

`FieldIndex::get` searches the sparse table by bisection. `search` is that lookup, and
`FieldIndex.search_build` equates it, for either representation, with a scan for the first field that
has the number. The sort of the table is unstable, which is no matter as pairs that tie are equal. -/

namespace FastProto

open Lib

/-- `FieldIndex::get`. -/
def FieldIndex.search : FieldIndex → UInt32 → Option Nat
  | .dense table, number =>
      match table[number.toNat]? with
      | some slot => if slot ≠ 0 then some (slot.toNat - 1) else none
      | none => none
  | .sparse pairs, number =>
      (binarySearch (fun p => p.1.toNat) pairs number.toNat).bind fun i =>
        pairs[i]?.map fun p => p.2.toNat

/-! ## Sorting -/

/-- **Without repeated numbers the sorted pairs increase strictly.** -/
theorem pairwise_dedupByNumber {pairs : List (UInt32 × UInt32)}
    (hsorted : pairs.Pairwise fun a b => pairLe a b = true) :
    ∀ prev, (∀ n ∈ prev, ∀ p ∈ pairs, n.toNat ≤ p.1.toNat) →
      (dedupByNumber prev pairs).Pairwise (fun a b => a.1.toNat < b.1.toNat) ∧
        ∀ n ∈ prev, ∀ p ∈ dedupByNumber prev pairs, n.toNat < p.1.toNat := by
  induction pairs with
  | nil => exact fun prev _ => ⟨List.Pairwise.nil, fun _ _ _ hp => nomatch hp⟩
  | cons a rest ih =>
      intro prev hprev
      obtain ⟨hhead, hrest⟩ := List.pairwise_cons.mp hsorted
      have hafter : ∀ n ∈ some a.1, ∀ p ∈ rest, n.toNat ≤ p.1.toNat := by
        intro n hn p hp
        cases hn
        have := hhead p hp
        simp only [pairLe, Bool.or_eq_true, Bool.and_eq_true, decide_eq_true_eq, beq_iff_eq,
          UInt32.lt_iff_toNat_lt, ← UInt32.toNat_inj] at this
        omega
      rw [dedupByNumber]
      split
      · rename_i hdrop
        rw [hdrop]
        exact ih hrest (some a.1) hafter
      · rename_i hkeep
        obtain ⟨hpairwise, habove⟩ := ih hrest (some a.1) hafter
        refine ⟨List.pairwise_cons.mpr ⟨fun p hp => habove a.1 rfl p hp, hpairwise⟩, ?_⟩
        intro n hn p hp
        have hle := hprev n hn a List.mem_cons_self
        have hne : n.toNat ≠ a.1.toNat := by
          intro heq
          exact hkeep (by rw [← UInt32.toNat_inj.mp heq]; exact hn)
        rcases List.mem_cons.mp hp with rfl | hp
        · omega
        · have := habove a.1 rfl p hp
          omega

/-! ## Lookups -/

/-- In a table whose numbers increase, bisection finds what `get` finds. -/
theorem FieldIndex.search_sparse {pairs : List (UInt32 × UInt32)}
    (hsorted : pairs.Pairwise fun a b => a.1.toNat < b.1.toNat) (number : UInt32) :
    (sparse pairs).search number = (sparse pairs).get number := by
  have hfind := binarySearch_eq_find hsorted number.toNat
  have hkey : (fun p : UInt32 × UInt32 => decide (p.1.toNat = number.toNat))
      = fun p => p.1 == number := by
    funext p
    rw [Bool.eq_iff_iff, decide_eq_true_eq, beq_iff_eq, UInt32.toNat_inj]
  rw [hkey] at hfind
  rw [search, get, ← hfind]
  cases binarySearch (fun p : UInt32 × UInt32 => p.1.toNat) pairs number.toNat <;> rfl

/-- In the tables that `build` makes, bisection finds what `get` finds. -/
theorem FieldIndex.search_eq_get (fields : List FieldDescriptor) (number : UInt32) :
    (build fields).search number = (build fields).get number := by
  unfold build
  dsimp only
  split
  · rfl
  · have hsorted := List.pairwise_mergeSort pairLe_trans pairLe_total
    exact search_sparse (pairwise_dedupByNumber (hsorted _) none (by simp)).1 number

/-- **The lookup table equals a linear scan**, whichever representation it has. -/
theorem FieldIndex.search_build (fields : List FieldDescriptor)
    (hlen : fields.length < 2 ^ 32 - 1) (number : UInt32) :
    (build fields).search number = fields.findIdx? fun f => f.number == number := by
  rw [search_eq_get, get_build hlen]
  rfl

/-- A field with a number and nothing else. -/
def numbered (number : UInt32) : FieldDescriptor :=
  { number, name := "", kind := .scalar .int32, label := .single, typeName := none,
    oneofIndex := none }

/-- The first of two declarations wins in a sparse table. -/
theorem search_build_sparse :
    (FieldIndex.build [numbered 9000000, numbered 5, numbered 9000000, numbered 0]).search 9000000
      = [numbered 9000000, numbered 5, numbered 9000000, numbered 0].findIdx?
          fun f => f.number == 9000000 :=
  FieldIndex.search_build _ (by decide) 9000000

end FastProto
